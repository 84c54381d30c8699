import ItxLlama.Seabios.BootOrder

/-!
# What the boot order holds

The count and the fill of the pointer array agree for every text. For the
six texts of the table the entries are those of the four classes, in the
order the index selects, and one empty entry behind the last newline.
-/

namespace ItxLlama.Seabios.Boot

open ItxLlama.Llama (Byte)

-- ---------------------------------------------------------------------------
-- The two passes
-- ---------------------------------------------------------------------------

theorem takeWhile_dropWhile_lines (f : CString) :
    (f.dropWhile (· ≠ '\n') = [] ∧ f.splitOn '\n' = [f.takeWhile (· ≠ '\n')]) ∨
      ∃ rest, f.dropWhile (· ≠ '\n') = '\n' :: rest ∧ rest.length < f.length ∧
        f.splitOn '\n' = f.takeWhile (· ≠ '\n') :: rest.splitOn '\n' := by
  have hline : '\n' ∉ f.takeWhile (· ≠ '\n') := fun h => by
    simpa using List.all_eq_true.mp List.all_takeWhile _ h
  have hsplit := List.takeWhile_append_dropWhile (p := (· ≠ '\n')) (l := f)
  cases hdrop : f.dropWhile (· ≠ '\n') with
  | nil =>
    rw [hdrop, List.append_nil] at hsplit
    exact .inl ⟨rfl, by rw [hsplit] at hline ⊢; exact List.splitOn_eq_singleton hline⟩
  | cons c rest =>
    have hc : c = '\n' := by
      have := List.head?_dropWhile_not (p := (· ≠ '\n')) f
      rw [hdrop] at this
      simpa using this
    subst hc
    rw [hdrop] at hsplit
    refine .inr ⟨rest, rfl, ?_, ?_⟩
    · have := congrArg List.length hsplit
      simp only [List.length_append, List.length_cons] at this
      omega
    · conv_lhs => rw [← hsplit]
      exact List.splitOn_append_cons_self_of_not_mem hline rest

theorem length_splitOn_newline (f : CString) : (f.splitOn '\n').length = countEntries f := by
  induction f with
  | nil => rfl
  | cons c f ih =>
    rw [List.splitOn_cons_eq_if_modifyHead]
    by_cases hc : c = '\n' <;> simp [hc, countEntries, ih]

/-- The induction is on the bound of the loop; the entries before `i` are
written already. -/
theorem fillEntries_eq (hf : f.length < fuel) (hlen : bootorder.length = i + countEntries f) :
    fillEntries fuel i f bootorder =
      some (bootorder.take i ++ (f.splitOn '\n').map fun line => some (nullTrailingSpace line)) := by
  induction fuel generalizing i f bootorder with
  | zero => omega
  | succ fuel ih =>
    rw [← length_splitOn_newline] at hlen
    have hpos := List.length_pos_iff.mpr (List.splitOn_ne_nil '\n' f)
    have hi : i < bootorder.length := by omega
    let line := nullTrailingSpace (f.takeWhile (· ≠ '\n'))
    have hset : (bootorder.set i (some line)).take (i + 1) = bootorder.take i ++ [some line] := by
      rw [List.set_eq_take_append_cons_drop, if_pos hi, List.take_append]
      simp [Nat.min_eq_left (Nat.le_of_lt hi), List.take_take]
    unfold fillEntries
    rw [if_pos hi]
    rcases takeWhile_dropWhile_lines f with ⟨hend, hlines⟩ | ⟨rest, hnext, hlt, hlines⟩
    · have htake : (bootorder.set i (some line)).take (i + 1) = bootorder.set i (some line) :=
        List.take_of_length_le (by rw [List.length_set, hlen, hlines]; simp)
      simp only [hend, hlines, List.map_cons, List.map_nil]
      rw [← hset, htake]
    · have hrest : (bootorder.set i (some line)).length = i + 1 + countEntries rest := by
        rw [List.length_set, hlen, hlines, ← length_splitOn_newline, List.length_cons]
        omega
      simp only [hnext, hlines, List.map_cons]
      rw [ih (by omega) hrest, hset, List.append_assoc]
      rfl

theorem loadBootOrder_eq (hf : heap.f) (ht : bootOrderText index = some f) :
    loadBootOrder index heap = some (if heap.bootorder then
      ⟨(f.splitOn '\n').map fun line => some (nullTrailingSpace line), countEntries f⟩
      else ⟨[], 0⟩) := by
  unfold loadBootOrder
  rw [if_pos hf, ht, Option.bind_eq_bind, Option.bind_some]
  by_cases harray : heap.bootorder
  · have hfill := fillEntries_eq (f := f) (i := 0) (Nat.lt_succ_self f.length)
      (show (List.replicate (countEntries f) none).length = _ by simp)
    simp only [harray, if_true]
    rw [hfill]
    rfl
  · simp only [harray]
    rfl

/-- One pointer for each entry of the array, all of them written. -/
def BootOrder.Filled (o : BootOrder) : Prop :=
  o.bootorder.length = o.bootorderCount ∧ ∀ e ∈ o.bootorder, e.isSome

theorem loadBootOrder_filled (h : loadBootOrder index heap = some o) : o.Filled := by
  by_cases hf : heap.f
  · cases ht : bootOrderText index with
    | none =>
      rw [loadBootOrder, if_pos hf, ht] at h
      cases h
    | some f =>
      rw [loadBootOrder_eq hf ht] at h
      split at h <;> cases h
      · exact ⟨by simp [length_splitOn_newline], by simp⟩
      · exact ⟨rfl, by simp⟩
  · rw [loadBootOrder, if_neg hf] at h
    cases h

-- ---------------------------------------------------------------------------
-- The entries of the table's orders
-- ---------------------------------------------------------------------------

inductive DiskClass where
  | sata | sd | usb | vfloppy
  deriving DecidableEq, Repr

def ataEntry (chanid : BitVec 32) : CString :=
  cstr "/pci@i0cf8/*@c/drive@" ++ (putprettyhex chanid ++ cstr "/disk@0")

def storageEntry (port : BitVec 32) : CString :=
  cstr "/pci@i0cf8/usb@a,1/storage@" ++ (putprettyhex port ++ cstr "/*@0/*@0,0")

def usbEntry (port : BitVec 32) : CString :=
  cstr "/pci@i0cf8/usb@a,1/usb-*@" ++ putprettyhex port

def hubEntry (port : BitVec 32) : CString :=
  cstr "/pci@i0cf8/usb@a,1/hub@1/usb-*@" ++ putprettyhex port

def DiskClass.entries : DiskClass → List CString
  | .sata => [ataEntry 1]
  | .sd => [ataEntry 0]
  | .usb =>
    [ storageEntry 1, usbEntry 1, storageEntry 2, usbEntry 2,
      hubEntry 1, hubEntry 2, hubEntry 3, hubEntry 4 ]
  | .vfloppy => [cstr "/rom@floppyimg/*"]

/-- The lines of the boot order entry in the disk settings menu. -/
def bootOrders : List (List DiskClass) :=
  [ [.sata, .sd, .usb, .vfloppy],
    [.sata, .usb, .sd, .vfloppy],
    [.sd, .sata, .usb, .vfloppy],
    [.sd, .usb, .sata, .vfloppy],
    [.usb, .sata, .sd, .vfloppy],
    [.usb, .sd, .sata, .vfloppy] ]

def DiskClass.string : DiskClass → CString
  | .sata => llamaBootDiskStringSata
  | .sd => llamaBootDiskStringSd
  | .usb => llamaBootDiskStringUsb
  | .vfloppy => llamaBootDiskStringVfloppy

theorem putprettyhex_zero : putprettyhex 0#32 = ['0'] := by decide
theorem putprettyhex_one : putprettyhex 1#32 = ['1'] := by decide
theorem putprettyhex_two : putprettyhex 2#32 = ['2'] := by decide
theorem putprettyhex_three : putprettyhex 3#32 = ['3'] := by decide
theorem putprettyhex_four : putprettyhex 4#32 = ['4'] := by decide

theorem sata_lines : llamaBootDiskStringSata = ataEntry 1 ++ ['\n'] := by
  unfold llamaBootDiskStringSata ataEntry
  simp [cstr_eq, putprettyhex_one]

theorem sd_lines : llamaBootDiskStringSd = ataEntry 0 ++ ['\n'] := by
  unfold llamaBootDiskStringSd ataEntry
  simp [cstr_eq, putprettyhex_zero]

set_option maxRecDepth 2000 in
theorem usb_lines : llamaBootDiskStringUsb = DiskClass.usb.entries.flatMap (· ++ ['\n']) := by
  unfold llamaBootDiskStringUsb DiskClass.entries storageEntry usbEntry hubEntry
  simp [cstr_eq, putprettyhex_one, putprettyhex_two, putprettyhex_three, putprettyhex_four]

theorem vfloppy_lines : llamaBootDiskStringVfloppy = cstr "/rom@floppyimg/*" ++ ['\n'] := by
  unfold llamaBootDiskStringVfloppy
  simp [cstr_eq]

/-- The text of some lines, each ended by a newline. -/
def linesText (entries : List CString) : CString := entries.flatMap (· ++ ['\n'])

theorem splitOn_linesText (entries : List CString) (h : ∀ e ∈ entries, '\n' ∉ e) :
    (linesText entries).splitOn '\n' = entries ++ [[]] := by
  induction entries with
  | nil => rfl
  | cons e entries ih =>
    have := ih fun e he => h e (List.mem_cons_of_mem _ he)
    simp only [linesText, List.flatMap_cons, List.append_assoc, List.singleton_append] at *
    rw [List.splitOn_append_cons_self_of_not_mem (h e (by simp)), this]
    rfl

theorem countEntries_linesText (entries : List CString) (h : ∀ e ∈ entries, '\n' ∉ e) :
    countEntries (linesText entries) = entries.length + 1 := by
  rw [← length_splitOn_newline, splitOn_linesText entries h]
  simp

theorem entries_trimmed (k : DiskClass) :
    ∀ e ∈ k.entries, '\n' ∉ e ∧ nullTrailingSpace e = e := by
  unfold DiskClass.entries ataEntry storageEntry usbEntry hubEntry nullTrailingSpace
  cases k <;> simp [cstr_eq, putprettyhex_zero, putprettyhex_one, putprettyhex_two,
    putprettyhex_three, putprettyhex_four]

def orderEntries (order : List DiskClass) : List CString := order.flatMap DiskClass.entries

theorem snprintf_fits {a b c d : CString} (h : a.length + b.length + c.length + d.length < fSize) :
    snprintf fSize [] (a ++ b ++ c ++ d) = a ++ b ++ c ++ d := by
  rw [snprintf, List.nil_append, List.take_of_length_le]
  simp only [List.length_append]
  omega

theorem bootOrderText_table (hi : index.toNat < 6) : ∃ order,
    bootOrders[index.toNat]? = some order ∧
      bootOrderText index = some (linesText (orderEntries order)) := by
  have hfits : llamaBootDiskStringSata.length + llamaBootDiskStringSd.length +
      llamaBootDiskStringUsb.length + llamaBootDiskStringVfloppy.length < fSize := by
    unfold fSize
    omega
  have hsata : llamaBootDiskStringSata = linesText DiskClass.sata.entries := by
    simp [sata_lines, linesText, DiskClass.entries]
  have hsd : llamaBootDiskStringSd = linesText DiskClass.sd.entries := by
    simp [sd_lines, linesText, DiskClass.entries]
  have hvfloppy : llamaBootDiskStringVfloppy = linesText DiskClass.vfloppy.entries := by
    simp only [vfloppy_lines, linesText, DiskClass.entries, List.flatMap_singleton]
  have hsix : index.toNat = 0 ∨ index.toNat = 1 ∨ index.toNat = 2 ∨ index.toNat = 3 ∨
      index.toNat = 4 ∨ index.toNat = 5 := by omega
  unfold bootOrderText
  rcases hsix with h | h | h | h | h | h
  all_goals
    refine ⟨_, by rw [h]; rfl, ?_⟩
    simp only [h]
    rw [snprintf_fits (by omega), hsata, hsd, hvfloppy, usb_lines]
    simp only [linesText, orderEntries, List.flatMap_append, List.flatMap_cons, List.flatMap_nil,
      List.append_assoc, List.append_nil]

theorem orderEntries_trimmed (order : List DiskClass) :
    ∀ e ∈ orderEntries order, '\n' ∉ e ∧ nullTrailingSpace e = e := by
  intro e he
  obtain ⟨k, -, hk⟩ := List.mem_flatMap.mp he
  exact entries_trimmed k e hk

/-- What the array holds: the entries of the classes in their order, and the
empty line behind the last newline. -/
theorem loadBootOrder_table (hi : index.toNat < 6) (hf : heap.f) : ∃ order,
    bootOrders[index.toNat]? = some order ∧ loadBootOrder index heap = some
      (if heap.bootorder then
        ⟨(orderEntries order ++ [[]]).map some, (orderEntries order).length + 1⟩ else ⟨[], 0⟩) := by
  obtain ⟨order, horder, ht⟩ := bootOrderText_table hi
  have htrim := orderEntries_trimmed order
  have hlines : ∀ e ∈ orderEntries order, '\n' ∉ e := fun e he => (htrim e he).1
  refine ⟨order, horder, ?_⟩
  rw [loadBootOrder_eq hf ht, splitOn_linesText _ hlines, countEntries_linesText _ hlines,
    List.map_append, List.map_append,
    List.map_congr_left fun e he => congrArg some (htrim e he).2]
  rfl

end ItxLlama.Seabios.Boot
