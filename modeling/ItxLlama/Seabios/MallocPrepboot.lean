import ItxLlama.Seabios.MemmapOverflow
import ItxLlama.Seabios.RomArea

/-!
# Memory for the operating system

`malloc_preinit` takes the temporary zones and the permanent high zone out of
the e820 map's RAM, and `malloc_prepboot` gives the high zone's unused pages
back. What `malloc_prepboot` clears and prints is left out.
-/

namespace ItxLlama.Seabios

open Lib.Word Lib.Hlist Lib.Carve Lib.Ranges

def buildMaxHightable : Nat := 256 * 1024
def buildStackAddr : Nat := 0x7000
def buildEbdaMinimum : Nat := 0x90000
def buildLowramEnd : Nat := 0xa0000
def buildBiosAddr : Nat := 0xf0000
def buildBiosSize : Nat := 0x10000
def pageSize : Nat := 4096

/-- The allocator and the e820 map. -/
structure BootMemory extends AllocState where
  map : E820Map

/-- The loop of `malloc_preinit`, over the entries from the last one down. -/
def populateTmpHigh : List E820Entry → (highram : Nat) → AllocState → Option (Nat × AllocState)
  | [], highram, a => some (highram, a)
  | en :: rest, highram, a =>
    if en.eEnd < 1024 * 1024 then some (highram, a)
    else if en.type ≠ e820Ram ∨ en.eEnd > 0xffffffff then populateTmpHigh rest highram a
    else
      let s := u32 en.start
      let e := u32 en.eEnd
      let newe := alignDown (u32 (e + 2 ^ 32 - buildMaxHightable)) mallocMinAlign
      if highram = 0 ∧ newe ≤ e ∧ newe ≥ s then do
        let a ← (AllocOp.add .tmpHigh s newe).run a
        populateTmpHigh rest newe a
      else do
        let a ← (AllocOp.add .tmpHigh s e).run a
        populateTmpHigh rest highram a

def mallocPreinit (s : BootMemory) : Option BootMemory := do
  let map := addE820 buildLowramEnd (buildBiosAddr - buildLowramEnd) e820Hole s.map
  let map := addE820 buildBiosAddr buildBiosSize e820Reserved map
  let (highram, a) ← populateTmpHigh map.list.reverse 0 s.toAllocState
  let a ← (AllocOp.add .tmpLow buildStackAddr buildEbdaMinimum).run a
  if highram = 0 then return ⟨a, map⟩
  let a ← (AllocOp.add .high highram (highram + buildMaxHightable)).run a
  return ⟨a, addE820 highram buildMaxHightable e820Reserved map⟩

/-- The unused pages at the bottom of the high zone: their start and size. -/
def unusedHigh (m : Mem) : Nat × Nat :=
  let info := findLast m .high
  if info = 0 then (0, 0)
  else (m (info + 12), alignDown (u32 (m (info + 16) + 2 ^ 32 - m (info + 12))) pageSize)

/-- `malloc_prepboot`, with the BDA's `mem_size_kb`. -/
def mallocPrepboot (memSizeKb : Nat) (s : BootMemory) : E820Map :=
  let endlow := memSizeKb * 1024
  let map := addE820 endlow (u32 (buildLowramEnd + 2 ^ 32 - endlow)) e820Reserved s.map
  let (dataend, giveback) := unusedHigh s.mem
  addE820 dataend giveback e820Ram map

/-- The use of the allocator, or a call of `add_e820`, in between. -/
inductive BootOp where
  | alloc (op : AllocOp)
  | add (c : AddCall)

def BootOp.run (s : BootMemory) : BootOp → Option BootMemory
  | .alloc op => (op.run s.toAllocState).map fun a => { s with toAllocState := a }
  | .add c => some { s with map := c.run s.map }

/-- The high zone is not added to, and no more RAM is found. -/
def BootOp.Ok (s : BootMemory) : BootOp → Prop
  | .alloc op => op.Ok s.toAllocState ∧ ∀ z start end_, op = .add z start end_ → z ≠ .high
  | .add c => c.Ok ∧ c.type ≠ e820Ram

def BootOp.Wraps (s : BootMemory) : BootOp → Prop
  | .alloc op => op.Wraps s.toAllocState
  | .add _ => False

/-- The states of runs that begin with `malloc_preinit`, on any map. -/
inductive BootReach (P : BootMemory → BootOp → Prop) : BootMemory → Prop
  | preinit (m : Mem) (hm : ∀ z : Zone, m z.head = 0) (cs : List AddCall) (hcs : ∀ c ∈ cs, c.Ok)
      (h : mallocPreinit ⟨⟨m, [], []⟩, addCalls cs⟩ = some s) : BootReach P s
  | step (h : BootReach P s) (hp : P s op) (hrun : op.run s = some s') : BootReach P s'

-- ---------------------------------------------------------------------------
-- What the map can say
-- ---------------------------------------------------------------------------

/-- A map of calls, in which nothing but their last writes can be read. -/
def MapOf (m : E820Map) (cs : List AddCall) : Prop := m = addCalls cs ∧ ∀ c ∈ cs, c.Ok

section Map

variable {m : E820Map} {cs : List AddCall}

theorem lastCall_concat (cs : List AddCall) (c : AddCall) (a : Nat) :
    lastCall (cs ++ [c]) a = if c.start ≤ a ∧ a < c.start + c.size then
      (if c.type = e820Hole then none else some c.type) else lastCall cs a := by
  rw [lastCall_eq, lastCall_eq, List.map_append, List.map_singleton, lastWrite_concat]
  rfl

theorem MapOf.run (h : MapOf m cs) (c : AddCall) (hc : c.Ok) : MapOf (c.run m) (cs ++ [c]) := by
  refine ⟨by rw [addCalls_concat, h.1], fun x hx => ?_⟩
  rcases List.mem_append.mp hx with hx | hx
  · exact h.2 x hx
  · rwa [List.mem_singleton.mp hx]

theorem MapOf.add (h : MapOf m cs) (start size type : Nat) (hfit : start + size < 2 ^ 64) :
    ∃ cs', MapOf (addE820 start size type m) cs' ∧ ∀ a, lastCall cs' a =
      if start ≤ a ∧ a < start + size then (if type = e820Hole then none else some type)
      else lastCall cs a := by
  rcases Nat.eq_zero_or_pos size with rfl | hpos
  · refine ⟨cs, by simpa [addE820] using h, fun a => ?_⟩
    rw [if_neg (by omega)]
  · exact ⟨_, h.run ⟨start, size, type⟩ ⟨hpos, hfit⟩, lastCall_concat cs ⟨start, size, type⟩⟩

theorem MapOf.typeAt (h : MapOf m cs) (ha : m.typeAt a = some t) : lastCall cs a = some t := by
  obtain ⟨rfl, hok⟩ := h
  obtain ⟨hinv, -, hmean⟩ := addCalls_weak cs hok
  rw [lastCall_eq]
  exact hmean a t (hinv.canonical.lookup_eq_some.mp ha)

theorem MapOf.entry (h : MapOf m cs) (he : e ∈ m.list) (hlo : e.start ≤ a)
    (hhi : a < e.start + e.size) : lastCall cs a = some e.type := by
  obtain ⟨rfl, hok⟩ := h
  obtain ⟨-, -, hmean⟩ := addCalls_weak cs hok
  rw [lastCall_eq]
  exact hmean a e.type ⟨e.range, List.mem_map_of_mem he, ⟨hlo, hhi⟩, rfl⟩

end Map

-- ---------------------------------------------------------------------------
-- malloc_preinit
-- ---------------------------------------------------------------------------

/-- What the loop has made of the entries above `bound`: temporary high
regions, off the space set aside for the high zone. -/
structure HighSplit (highram bound : Nat) (regions : List (Zone × Nat × Nat)) : Prop where
  zone : ∀ r ∈ regions, r.1 = .tmpHigh
  ge : ∀ r ∈ regions, 2 ^ 20 ≤ r.2.1 ∧ bound ≤ r.2.1
  high : highram ≠ 0 → 2 ^ 20 ≤ highram ∧ bound ≤ highram ∧ highram + buildMaxHightable < 2 ^ 32 ∧
    ∀ r ∈ regions, r.2.2 ≤ highram ∨ highram + buildMaxHightable ≤ r.2.1

section Preinit

variable {a : AllocState} {gs : List Region} {l : List E820Entry}

theorem HighSplit.lower (h : HighSplit highram bound regions) (hle : bound' ≤ bound) :
    HighSplit highram bound' regions := by
  refine ⟨h.zone, fun r hr => ?_, fun h0 => ?_⟩
  · obtain ⟨h1, h2⟩ := h.ge r hr
    exact ⟨h1, Nat.le_trans hle h2⟩
  · obtain ⟨h1, h2, h3⟩ := h.high h0
    exact ⟨h1, Nat.le_trans hle h2, h3⟩

theorem Holds.add_region (h : Holds a gs) (hok : (AllocOp.add z lo hi).Ok a) :
    ∃ a' gs', (AllocOp.add z lo hi).run a = some a' ∧ Holds a' gs' ∧
      (a'.regions = a.regions ∨ a'.regions = (z, lo, hi) :: a.regions) := by
  obtain ⟨added, m', gs', heq, h', -⟩ := h.add hok
  refine ⟨_, gs', by simp only [AllocOp.run, heq]; rfl, h', ?_⟩
  cases added with
  | false => exact .inl rfl
  | true => exact .inr rfl

theorem HighSplit.add (h : HighSplit highram bound regions) (hlo : 2 ^ 20 ≤ lo)
    (hlb : bound' ≤ lo) (hbb : bound' ≤ bound) (hhi : highram ≠ 0 → hi ≤ highram)
    (hr : regions' = regions ∨ regions' = (.tmpHigh, lo, hi) :: regions) :
    HighSplit highram bound' regions' := by
  have h' := h.lower hbb
  rcases hr with rfl | rfl
  · exact h'
  · refine ⟨?_, ?_, fun h0 => ?_⟩
    · exact List.forall_mem_cons.mpr ⟨rfl, h'.zone⟩
    · exact List.forall_mem_cons.mpr ⟨⟨hlo, hlb⟩, h'.ge⟩
    · obtain ⟨h1, h2, h3, h4⟩ := h'.high h0
      exact ⟨h1, h2, h3, List.forall_mem_cons.mpr ⟨.inl (hhi h0), h4⟩⟩

theorem populateTmpHigh_spec (hlt : ∀ e ∈ l, e.start + e.size < 2 ^ 64)
    (hram : ∀ e ∈ l, e.type = e820Ram → 2 ^ 20 ≤ e.start + e.size → 2 ^ 20 ≤ e.start)
    (hsorted : l.Pairwise fun e f => f.start + f.size ≤ e.start)
    (hb : ∀ e ∈ l, e.start + e.size ≤ bound) (h : Holds a gs)
    (hs : HighSplit highram bound a.regions) :
    ∃ hr a' gs', populateTmpHigh l highram a = some (hr, a') ∧ Holds a' gs' ∧
      HighSplit hr 0 a'.regions := by
  induction l generalizing highram bound a gs with
  | nil => exact ⟨highram, a, gs, rfl, h, hs.lower (Nat.zero_le _)⟩
  | cons en l ih =>
    rw [List.forall_mem_cons] at hlt hram hb
    obtain ⟨hbelow, hsorted⟩ := List.pairwise_cons.mp hsorted
    have hend : en.eEnd = en.start + en.size := u64_eq hlt.1
    rw [populateTmpHigh, hend]
    by_cases hsmall : en.start + en.size < 1024 * 1024
    · rw [if_pos hsmall]
      exact ⟨highram, a, gs, rfl, h, hs.lower (Nat.zero_le _)⟩
    rw [if_neg hsmall]
    by_cases hskip : en.type ≠ e820Ram ∨ en.start + en.size > 0xffffffff
    · rw [if_pos hskip]
      have hle : en.start ≤ bound := Nat.le_trans (Nat.le_add_right _ _) hb.1
      exact ih hlt.2 hram.2 hsorted hbelow h (hs.lower hle)
    rw [if_neg hskip]
    obtain ⟨hty, hword⟩ := not_or.mp hskip
    rw [not_not] at hty
    have hstart := hram.1 hty (Nat.le_of_not_lt hsmall)
    have hs32 : u32 en.start = en.start := u32_eq (by omega)
    have he32 : u32 (en.start + en.size) = en.start + en.size := u32_eq (by omega)
    simp only [hs32, he32]
    have hoff : ∀ r ∈ a.regions, en.start + en.size ≤ r.2.1 := fun r hr =>
      Nat.le_trans hb.1 (hs.ge r hr).2
    have hbound : en.start ≤ bound := Nat.le_trans (Nat.le_add_right _ _) hb.1
    have hsub : u32 (en.start + en.size + 2 ^ 32 - buildMaxHightable) =
        en.start + en.size - buildMaxHightable := by
      simp only [u32, buildMaxHightable]
      omega
    rw [hsub]
    have hdown := alignDown_le (en.start + en.size - buildMaxHightable) mallocMinAlign
    generalize alignDown (en.start + en.size - buildMaxHightable) mallocMinAlign = newe at *
    by_cases hnew : highram = 0 ∧ newe ≤ en.start + en.size ∧ newe ≥ en.start
    · rw [if_pos hnew]
      obtain ⟨h0, -, hge⟩ := hnew
      have hok : (AllocOp.add .tmpHigh en.start newe).Ok a :=
        ⟨by omega, hge, by omega, fun r hr => .inr (by have := hoff r hr; omega)⟩
      obtain ⟨a', gs', heq, h', hreg⟩ := h.add_region hok
      rw [heq]
      refine ih hlt.2 hram.2 hsorted hbelow h' ?_
      have hs' : HighSplit newe en.start a.regions := by
        refine ⟨hs.zone, (hs.lower hbound).ge, fun _ => ⟨by omega, hge, ?_, fun r hr => .inr ?_⟩⟩
        · simp only [buildMaxHightable] at hdown ⊢
          omega
        · have := hoff r hr
          simp only [buildMaxHightable] at hdown ⊢
          omega
      exact hs'.add hstart (Nat.le_refl _) (Nat.le_refl _) (fun _ => Nat.le_refl _) hreg
    · rw [if_neg hnew]
      have hok : (AllocOp.add .tmpHigh en.start (en.start + en.size)).Ok a :=
        ⟨by omega, Nat.le_add_right _ _, by omega, fun r hr => .inr (hoff r hr)⟩
      obtain ⟨a', gs', heq, h', hreg⟩ := h.add_region hok
      rw [heq]
      refine ih hlt.2 hram.2 hsorted hbelow h' (hs.add hstart (Nat.le_refl _) hbound (fun h0 => ?_) hreg)
      have := (hs.high h0).2.1
      omega

end Preinit

-- ---------------------------------------------------------------------------
-- The invariant
-- ---------------------------------------------------------------------------

/-- There is at most one high region, and no call after it was set aside has
made RAM of it. -/
def HighKept (regions : List (Zone × Nat × Nat)) (cs : List AddCall) : Prop :=
  regions.filter (fun r => r.1 = .high) = [] ∨
    ∃ lo hi, regions.filter (fun r => r.1 = .high) = [(.high, lo, hi)] ∧
      ∀ x, lo ≤ x → x < hi → lastCall cs x ≠ some e820Ram

structure BootHolds (s : BootMemory) (gs : List Region) (cs : List AddCall) : Prop where
  alloc : Holds s.toAllocState gs
  map : MapOf s.map cs
  high : HighKept s.regions cs

section Step

variable {s s' : BootMemory} {gs : List Region} {cs : List AddCall} {op : BootOp}

theorem entry_above_hole {map : E820Map} (h : MapOf map cs)
    (hbios : ∀ x, buildLowramEnd ≤ x → x < buildBiosAddr + buildBiosSize →
      lastCall cs x ≠ some e820Ram) (he : e ∈ map.list) (hty : e.type = e820Ram)
    (hge : 2 ^ 20 ≤ e.start + e.size) : 2 ^ 20 ≤ e.start := by
  by_contra hlt
  -- the last byte below 1 MiB
  refine hbios (2 ^ 20 - 1) (by decide) (by decide) ?_
  rw [← hty]
  exact h.entry he (by omega) (by omega)

theorem mallocPreinit_spec (m : Mem) (hm : ∀ z : Zone, m z.head = 0) (cs : List AddCall)
    (hcs : ∀ c ∈ cs, c.Ok) : ∃ s gs cs', mallocPreinit ⟨⟨m, [], []⟩, addCalls cs⟩ = some s ∧
      BootHolds s gs cs' := by
  have h₀ : MapOf (addCalls cs) cs := ⟨rfl, hcs⟩
  obtain ⟨cs₁, h₁, hl₁⟩ := h₀.add buildLowramEnd (buildBiosAddr - buildLowramEnd) e820Hole
    (by decide)
  obtain ⟨cs₂, h₂, hl₂⟩ := h₁.add buildBiosAddr buildBiosSize e820Reserved (by decide)
  generalize hmap : addE820 buildBiosAddr buildBiosSize e820Reserved (addE820 buildLowramEnd
    (buildBiosAddr - buildLowramEnd) e820Hole (addCalls cs)) = map at h₂
  have hbios : ∀ x, buildLowramEnd ≤ x → x < buildBiosAddr + buildBiosSize →
      lastCall cs₂ x ≠ some e820Ram := by
    intro x hlo hhi
    rw [hl₂, hl₁]
    simp only [buildLowramEnd, buildBiosAddr, buildBiosSize] at hlo hhi ⊢
    split
    · decide
    · rw [if_pos (by omega)]
      decide
  obtain ⟨⟨hcan, hent⟩, -, -⟩ := addCalls_weak cs₂ h₂.2
  rw [← h₂.1] at hcan hent
  have hs₀ : HighSplit 0 (2 ^ 64) [] := ⟨by simp, by simp, fun h0 => absurd rfl h0⟩
  obtain ⟨hr, a, gs, heq, ha, hs⟩ := populateTmpHigh_spec (l := map.list.reverse)
    (fun e he => hent.fits e (List.mem_reverse.mp he))
    (fun e he => entry_above_hole h₂ hbios (List.mem_reverse.mp he))
    (List.pairwise_reverse.mpr ((List.pairwise_map.mp hcan.sorted).imp And.left))
    (fun e he => Nat.le_of_lt (hent.fits e (List.mem_reverse.mp he)))
    (holds_start m hm) hs₀
  have hlow : (AllocOp.add .tmpLow buildStackAddr buildEbdaMinimum).Ok a := by
    refine ⟨by decide, by decide, by decide, fun r hr => .inr ?_⟩
    exact Nat.le_trans (by decide) (hs.ge r hr).1
  obtain ⟨a₁, gs₁, heq₁, ha₁, hreg₁⟩ := ha.add_region hlow
  have hnone : a₁.regions.filter (fun r => r.1 = .high) = [] := by
    refine List.filter_eq_nil_iff.mpr fun r hr => ?_
    rcases hreg₁ with hreg₁ | hreg₁
    · simp [hs.zone r (hreg₁ ▸ hr)]
    · rcases List.mem_cons.mp (hreg₁ ▸ hr) with rfl | hr
      · decide
      · simp [hs.zone r hr]
  by_cases h0 : hr = 0
  · refine ⟨⟨a₁, map⟩, gs₁, cs₂, ?_, ha₁, h₂, .inl hnone⟩
    simp only [mallocPreinit, hmap, heq, Option.bind_eq_bind, Option.bind_some, heq₁, if_pos h0]
    rfl
  · obtain ⟨h1, -, h3, h4⟩ := hs.high h0
    have hhigh : (AllocOp.add .high hr (hr + buildMaxHightable)).Ok a₁ := by
      refine ⟨by omega, Nat.le_add_right _ _, h3, fun r hr' => ?_⟩
      rcases hreg₁ with hreg₁ | hreg₁
      · exact h4 r (hreg₁ ▸ hr')
      · rcases List.mem_cons.mp (hreg₁ ▸ hr') with rfl | hr'
        · exact .inl (Nat.le_trans (by decide) h1)
        · exact h4 r hr'
    obtain ⟨a₂, gs₂, heq₂, ha₂, hreg₂⟩ := ha₁.add_region hhigh
    obtain ⟨cs₃, h₃, hl₃⟩ := h₂.add hr buildMaxHightable e820Reserved
      (Nat.lt_trans h3 (by decide))
    refine ⟨⟨a₂, _⟩, gs₂, cs₃, ?_, ha₂, h₃, ?_⟩
    · simp only [mallocPreinit, hmap, heq, Option.bind_eq_bind, Option.bind_some, heq₁, if_neg h0,
        heq₂]
      rfl
    · rcases hreg₂ with hreg₂ | hreg₂
      · exact .inl (by rw [hreg₂, hnone])
      · refine .inr ⟨hr, hr + buildMaxHightable, by simp [hreg₂, hnone], fun x hlo hhi => ?_⟩
        rw [hl₃, if_pos ⟨hlo, hhi⟩]
        decide

theorem AllocOp.run_regions {a a' : AllocState} {op : AllocOp} (h : op.run a = some a') :
    a'.regions = a.regions ∨ ∃ z lo hi, op = .add z lo hi ∧
      a'.regions = (z, lo, hi) :: a.regions := by
  cases op with
  | add z lo hi =>
    obtain ⟨⟨added, m⟩, -, hrun⟩ := Option.bind_eq_some_iff.mp h
    cases hrun
    cases added with
    | false => exact .inl rfl
    | true => exact .inr ⟨z, lo, hi, rfl, rfl⟩
  | malloc z size align =>
    obtain ⟨⟨p, m⟩, -, hrun⟩ := Option.bind_eq_some_iff.mp h
    cases hrun
    exact .inl rfl
  | free data =>
    obtain ⟨⟨ret, m⟩, -, hrun⟩ := Option.bind_eq_some_iff.mp h
    cases hrun
    exact .inl rfl
  | write m =>
    cases h
    exact .inl rfl

theorem BootHolds.step (h : BootHolds s gs cs) (hok : op.Ok s) (hw : ¬ op.Wraps s) :
    ∃ s' gs' cs', op.run s = some s' ∧ BootHolds s' gs' cs' := by
  cases op with
  | alloc op =>
    obtain ⟨hok, hnot⟩ := hok
    obtain ⟨a, gs', heq, h'⟩ := h.alloc.step hok hw
    refine ⟨⟨a, s.map⟩, gs', cs, by simp [BootOp.run, heq], h', h.map, ?_⟩
    have hsame : a.regions.filter (fun r => r.1 = .high) =
        s.regions.filter (fun r => r.1 = .high) := by
      rcases AllocOp.run_regions heq with hreg | ⟨z, lo, hi, rfl, hreg⟩
      · rw [hreg]
      · rw [hreg, List.filter_cons_of_neg]
        simpa using hnot z lo hi rfl
    have := h.high
    rw [HighKept, ← hsame] at this
    exact this
  | add c =>
    obtain ⟨hok, hty⟩ := hok
    refine ⟨⟨s.toAllocState, _⟩, gs, cs ++ [c], rfl, h.alloc, h.map.run c hok, ?_⟩
    refine h.high.imp_right fun ⟨lo, hi, hf, hkeep⟩ => ⟨lo, hi, hf, fun x hlo hhi => ?_⟩
    rw [lastCall_concat]
    split
    · split
      · exact fun heq => nomatch heq
      · exact fun heq => hty (Option.some.inj heq)
    · exact hkeep x hlo hhi

theorem bootHolds_of_reach (h : BootReach (fun s op => op.Ok s ∧ ¬ op.Wraps s) s) :
    ∃ gs cs, BootHolds s gs cs := by
  induction h with
  | preinit m hm cs hcs h =>
    obtain ⟨s', gs, cs', heq, hs⟩ := mallocPreinit_spec m hm cs hcs
    rw [h] at heq
    exact ⟨gs, cs', Option.some.inj heq ▸ hs⟩
  | step _ hp hrun ih =>
    obtain ⟨gs, cs, hs⟩ := ih
    obtain ⟨s', gs', cs', heq, hs'⟩ := hs.step hp.1 hp.2
    rw [hrun] at heq
    exact ⟨gs', cs', Option.some.inj heq ▸ hs'⟩

end Step

-- ---------------------------------------------------------------------------
-- malloc_prepboot
-- ---------------------------------------------------------------------------

/-- The addresses that `malloc_prepboot` makes RAM again. -/
def givenBack (m : Mem) (x : Nat) : Prop :=
  (unusedHigh m).1 ≤ x ∧ x < (unusedHigh m).1 + (unusedHigh m).2

/-- What the operating system may count on after `malloc_prepboot` on `s`. -/
structure BootSafe (memSizeKb : Nat) (s : BootMemory) : Prop where
  /-- Nothing in use is RAM. -/
  live : ∀ b ∈ s.live, b.zone = .high → ∀ x, b.ptr ≤ x → x < b.ptr + b.size →
    (mallocPrepboot memSizeKb s).typeAt x ≠ some e820Ram
  /-- What becomes RAM of the high zone is its free bottom. -/
  given : ∀ r ∈ s.regions, r.1 = .high → (unusedHigh s.mem).1 = r.2.1 ∧
    ∀ x, r.2.1 ≤ x → x < r.2.2 →
      (mallocPrepboot memSizeKb s).typeAt x = some e820Ram → givenBack s.mem x
  free : ∀ x, givenBack s.mem x → x ∈ freeSet s.mem .high
  /-- It is pages. -/
  pages : (unusedHigh s.mem).2 ≠ 0 →
    pageSize ∣ (unusedHigh s.mem).1 ∧ pageSize ∣ (unusedHigh s.mem).1 + (unusedHigh s.mem).2

/-- A free page at the bottom of the high zone starts at a page. -/
def HighAligned (s : BootMemory) : Prop := ∀ r ∈ s.regions, r.1 = .high →
  (∀ x, r.2.1 ≤ x → x < r.2.1 + pageSize → x ∈ freeSet s.mem .high) → pageSize ∣ r.2.1

section Prepboot

variable {s : BootMemory} {gs : List Region} {cs : List AddCall}

theorem unusedHigh_none (h : BootHolds s gs cs)
    (hf : s.regions.filter (fun r => r.1 = .high) = []) : unusedHigh s.mem = (0, 0) := by
  have hzone : ∀ q ∈ gs, q.zone ≠ .high := fun q hq hz => by
    have := List.filter_eq_nil_iff.mp hf q.span
      (h.alloc.regions.mem_iff.mp (List.mem_map_of_mem hq))
    simp [Region.span, hz] at this
  have hnil : zoneInfos .high gs = [] := by
    rw [zoneInfos, List.filter_eq_nil_iff.mpr fun q hq => by simpa using hzone q hq]
    rfl
  have hlast : findLast s.mem .high = 0 := by
    rw [findLast, listRecords_zone h.alloc.rep h.alloc.books, hnil]
    rfl
  rw [unusedHigh, if_pos hlast]

theorem topAfter_concat (top : Nat) (cs : List Chunk) (c : Chunk) :
    topAfter Chunk.data top (cs ++ [c]) = c.data := by
  induction cs generalizing top with
  | nil => rfl
  | cons d cs ih => exact ih d.data

theorem unusedHigh_one (h : BootHolds s gs cs)
    (hf : s.regions.filter (fun r => r.1 = .high) = [(.high, lo, hi)]) :
    ∃ top, unusedHigh s.mem = (lo, alignDown (top - lo) pageSize) ∧ lo ≤ top ∧ top ≤ hi ∧
      hi < 2 ^ 32 ∧ (∀ x, lo ≤ x → x < top → x ∈ freeSet s.mem .high) ∧
      top ∉ freeSet s.mem .high := by
  obtain ⟨gs₁, r, gs₂, rfl, hzone, rfl, rfl, hno, hlast⟩ := h.alloc.only_region hf
  have hrep := h.alloc.rep
  have hbooks := h.alloc.books
  have hat := hrep.base_at
  have hr := hbooks.ok r (by simp)
  have hc := hr.carved
  rw [← List.append_nil r.chunks, carved_append] at hc
  obtain ⟨hpre, hpost⟩ := hc
  have hle := hpost.le
  have htop := hpre.le
  have hword := hr.word
  have hmem : r.addr ∈ addrs (zoneInfos .high (gs₁ ++ r :: gs₂)) := by
    have := zoneInfos_base gs₁ gs₂ r r.start
    rw [show r.from r.start = r from rfl] at this
    rw [← hzone, this]
    simp
  have hne : findLast s.mem .high ≠ 0 := by
    rw [← hlast]
    exact (hrep .high).chain.ne_zero hmem
  have hsub : u32 (topAfter Chunk.data r.fin r.chunks + 2 ^ 32 - r.start) =
      topAfter Chunk.data r.fin r.chunks - r.start := by
    simp only [u32]
    omega
  refine ⟨topAfter Chunk.data r.fin r.chunks, ?_, hle, htop, hword, fun x hlo hhi => ?_,
    fun hfree => ?_⟩
  · rw [unusedHigh, if_neg hne, ← hlast, hat.dataend, hat.allocend, hsub]
  · refine ⟨r.addr, ?_, ?_, ?_⟩
    · rwa [listRecords_zone hrep hbooks]
    · rw [hat.dataend]
      exact hlo
    · rw [hat.allocend]
      exact hhi
  · -- the lowest block, or the end of the region
    obtain ⟨q, hq, hqz, -, hqf, hoff⟩ := (mem_freeSet hrep hbooks).mp hfree
    have hqr : q = r := (mem_ends hq).resolve_right fun hq => hno q hq hqz
    subst hqr
    rcases List.eq_nil_or_concat q.chunks with hnil | ⟨cs', c, hcs⟩
    · rw [hnil] at hqf
      exact Nat.lt_irrefl _ hqf
    · have hcm : (q.zone, c) ∈ blocks (gs₁ ++ q :: gs₂) :=
        mem_blocks.mpr ⟨q, by simp, rfl, by simp [hcs]⟩
      obtain ⟨-, -, -, -, hlt, -⟩ := hbooks.block_bounds hcm
      have hoffc := hoff _ hcm
      rw [hcs, List.concat_eq_append, topAfter_concat] at hoffc
      simp only at hoffc hlt
      omega

theorem prepboot_ram (h : BootHolds s gs cs) (memSizeKb : Nat) (hkb : memSizeKb < 2 ^ 16)
    (hfit : (unusedHigh s.mem).1 + (unusedHigh s.mem).2 < 2 ^ 64)
    (ha : (mallocPrepboot memSizeKb s).typeAt x = some e820Ram) :
    givenBack s.mem x ∨ lastCall cs x = some e820Ram := by
  have hsize : u32 (buildLowramEnd + 2 ^ 32 - memSizeKb * 1024) < 2 ^ 32 := Nat.mod_lt _ (by decide)
  obtain ⟨cs₁, h₁, hl₁⟩ := h.map.add (memSizeKb * 1024)
    (u32 (buildLowramEnd + 2 ^ 32 - memSizeKb * 1024)) e820Reserved (by omega)
  obtain ⟨cs₂, h₂, hl₂⟩ := h₁.add (unusedHigh s.mem).1 (unusedHigh s.mem).2 e820Ram hfit
  have := h₂.typeAt ha
  rw [hl₂] at this
  split at this
  · rename_i hin
    exact .inl hin
  · rw [hl₁] at this
    split at this
    · exact absurd this (by decide)
    · exact .inr this

/-- After `malloc_prepboot` no RAM is in use, and the space given back is free
pages if and only if it starts at a page. -/
theorem bootSafe_iff (s : BootMemory) (h : BootReach (fun s op => op.Ok s ∧ ¬ op.Wraps s) s)
    (memSizeKb : Nat) (hkb : memSizeKb < 2 ^ 16) : BootSafe memSizeKb s ↔ HighAligned s := by
  obtain ⟨gs, cs, hs⟩ := bootHolds_of_reach h
  have hone : ∀ r ∈ s.regions, r.1 = .high → ∀ lo hi,
      s.regions.filter (fun r => r.1 = .high) = [(.high, lo, hi)] → r = (.high, lo, hi) := by
    intro r hr hz lo hi hf
    have : r ∈ s.regions.filter (fun r => r.1 = .high) := List.mem_filter.mpr ⟨hr, by simp [hz]⟩
    rw [hf] at this
    exact List.mem_singleton.mp this
  rcases hs.high with hf | ⟨lo, hi, hf, hkeep⟩
  · have hnone : ∀ r ∈ s.regions, r.1 ≠ .high := fun r hr hz =>
      (List.filter_eq_nil_iff.mp hf r hr) (by simp [hz])
    have hun := unusedHigh_none hs hf
    refine iff_of_true ⟨fun b hb hz => ?_, fun r hr hz => absurd hz (hnone r hr), fun x hx => ?_,
      fun hne => ?_⟩ fun r hr hz => absurd hz (hnone r hr)
    · obtain ⟨r, hr, hrz, -⟩ := hs.alloc.safe.inside b hb
      exact absurd (hrz.trans hz) (hnone r hr)
    · simp only [givenBack, hun] at hx
      omega
    · exact absurd (by rw [hun]) hne
  · obtain ⟨top, hun, hle, htop, hword, hfree, hnot⟩ := unusedHigh_one hs hf
    have hdown := alignDown_le (top - lo) pageSize
    have hdvd := dvd_alignDown (top - lo) pageSize
    have hlt := lt_alignDown_add (top - lo) (show 0 < pageSize by decide)
    have hfit : (unusedHigh s.mem).1 + (unusedHigh s.mem).2 < 2 ^ 64 := by
      rw [hun]
      simp only
      omega
    have hgiven : ∀ x, givenBack s.mem x → x ∈ freeSet s.mem .high := by
      intro x hx
      simp only [givenBack, hun] at hx
      exact hfree x hx.1 (by omega)
    have hram : ∀ x, lo ≤ x → x < hi →
        (mallocPrepboot memSizeKb s).typeAt x = some e820Ram → givenBack s.mem x :=
          fun x hlo hhi ha =>
      (prepboot_ram hs memSizeKb hkb hfit ha).resolve_right (hkeep x hlo hhi)
    have hpages : ((unusedHigh s.mem).2 ≠ 0 → pageSize ∣ (unusedHigh s.mem).1 ∧
        pageSize ∣ (unusedHigh s.mem).1 + (unusedHigh s.mem).2) ↔ HighAligned s := by
      rw [hun]
      simp only
      generalize alignDown (top - lo) pageSize = size at *
      constructor
      · intro hp r hr hz hpage
        obtain rfl := hone r hr hz lo hi hf
        refine (hp fun h0 => hnot (hpage top hle ?_)).1
        simp only
        omega
      · intro ha hne
        obtain ⟨k, rfl⟩ := hdvd
        have hk : 0 < k := by
          rcases Nat.eq_zero_or_pos k with rfl | hk
          · simp at hne
          · exact hk
        have hsize : pageSize ≤ pageSize * k := Nat.le_mul_of_pos_right _ hk
        have hmem : ((.high, lo, hi) : Zone × Nat × Nat) ∈ s.regions := by
          have : ((.high, lo, hi) : Zone × Nat × Nat) ∈
              s.regions.filter (fun r => r.1 = .high) := by simp [hf]
          exact (List.mem_filter.mp this).1
        have hlo := ha _ hmem rfl fun x hx hx' => hfree x hx (by simp only at hx'; omega)
        exact ⟨hlo, Nat.dvd_add hlo ⟨k, rfl⟩⟩
    refine ⟨fun hsafe => hpages.mp hsafe.pages, fun ha => ⟨fun b hb hz x hlo' hhi' hx => ?_,
      fun r hr hz => ?_, hgiven, hpages.mpr ha⟩⟩
    · obtain ⟨r, hr, hrz, hrlo, hrhi⟩ := hs.alloc.safe.inside b hb
      obtain rfl := hone r hr (hrz.trans hz) lo hi hf
      simp only at hrlo hrhi
      have hfx := hgiven x (hram x (by omega) (by omega) hx)
      obtain ⟨q, hq, -, -, -, hoff⟩ := (mem_freeSet hs.alloc.rep hs.alloc.books).mp hfx
      obtain ⟨c, hc, -, hd, he, -, -⟩ :=
        hs.alloc.books.user_block (hs.alloc.live.mem_iff.mpr hb)
      have := hoff _ hc
      simp only at this
      omega
    · obtain rfl := hone r hr hz lo hi hf
      exact ⟨by rw [hun], hram⟩

end Prepboot

/-- 128 MiB, of which a page of the high zone is in use. -/
theorem bootSafe_128m : ∃ s : BootMemory, s.live = [⟨.high, 0x7fff000, 0x1000, 16⟩] ∧
    BootSafe 639 s := by
  have hrun : ((mallocPreinit ⟨emptyZones, addCalls [⟨0, 0x8000000, e820Ram⟩]⟩).bind
      (BootOp.run · (.alloc (.malloc .high 0x1000 16)))).map (fun s => (s.live, s.regions)) =
      some ([⟨.high, 0x7fff000, 0x1000, 16⟩], [(.high, 0x7fc0000, 0x8000000),
        (.tmpLow, 0x7000, 0x90000), (.tmpHigh, 0x100000, 0x7fc0000)]) := by
    decide +kernel
  obtain ⟨s, hs, heq⟩ := Option.map_eq_some_iff.mp hrun
  obtain ⟨hlive, hregions⟩ := Prod.mk.inj heq
  obtain ⟨s₀, hs₀, hop⟩ := Option.bind_eq_some_iff.mp hs
  have hok : (AllocOp.malloc .high 0x1000 16).Ok s₀.toAllocState ∧
      ¬ (AllocOp.malloc .high 0x1000 16).Wraps s₀.toAllocState := roomTest_ok _ _ rfl
  have hp : (BootOp.alloc (.malloc .high 0x1000 16)).Ok s₀ ∧
      ¬ (BootOp.alloc (.malloc .high 0x1000 16)).Wraps s₀ := ⟨⟨hok.1, by simp⟩, hok.2⟩
  refine ⟨s, hlive, (bootSafe_iff s (.step (.preinit _ (fun _ => rfl) _ (by decide) hs₀) hp hop)
    639 (by decide)).mpr fun r hr hz _ => ?_⟩
  rw [hregions] at hr
  simp only [List.mem_cons, List.not_mem_nil, or_false] at hr
  rcases hr with rfl | rfl | rfl
  · exact ⟨0x7fc0, rfl⟩
  · exact absurd hz (by decide)
  · exact absurd hz (by decide)

/-- With RAM that ends within a page, the pages given back start within one. -/
theorem bootSafe_unaligned : ¬ ∀ s : BootMemory, BootReach (fun s op => op.Ok s) s →
    ∀ memSizeKb < 2 ^ 16, BootSafe memSizeKb s := by
  have hrun : (mallocPreinit ⟨emptyZones, addCalls [⟨0, 0x8000800, e820Ram⟩]⟩).map
      (fun s => unusedHigh s.mem) = some (0x7fc0800, 0x40000) := by
    decide +kernel
  obtain ⟨s, hs, heq⟩ := Option.map_eq_some_iff.mp hrun
  intro hall
  have hsafe := hall s (.preinit _ (fun _ => rfl) _ (by decide) hs) 639 (by decide)
  have hdvd := (hsafe.pages (by rw [heq]; decide)).1
  rw [heq] at hdvd
  exact absurd hdvd (by decide)

end ItxLlama.Seabios
