import ItxLlama.Seabios.MallocSafety
import Mathlib.Data.Set.Basic

/-!
# The allocator gives everything back

The free space of a zone is what its regions hold besides blocks. With no
allocation live the only blocks are the details of the regions themselves,
and these stay where they are through every allocation and free.
-/

namespace ItxLlama.Seabios

open Lib.Word Lib.Hlist Lib.Carve

/-- The addresses between `dataend` and `allocend` of the zone's records. -/
def freeSet (m : Mem) (z : Zone) : Set Nat :=
  {x | ∃ a ∈ listRecords m walkFuel z.head, m (a + 12) ≤ x ∧ x < m (a + 16)}

/-- A call to `_malloc` or `_free`, or a write. -/
def AllocOp.AddsNone : AllocOp → Prop
  | .add _ _ _ => False
  | _ => True

/-- The call returns a block, or takes one. -/
def AllocOp.succeeds (s : AllocState) : AllocOp → Bool
  | .malloc zone size align => (Seabios.malloc s.mem zone size align).any fun r => r.1 ≠ 0
  | .free data => (Seabios.free s.mem data).any fun r => r.1 = 0
  | _ => false

section Free

variable {gs gs' : List Region} {pend tmp : List Nat}

theorem infosFrom_slack : (∃ n ∈ infosFrom base start top cs, n.dataend ≤ x ∧ x < n.allocend) ↔
    ∃ pre post, cs = pre ++ post ∧ botBefore Chunk.dataend start post ≤ x ∧
      x < topAfter Chunk.data top pre := by
  constructor
  · rintro ⟨n, hn, h1, h2⟩
    obtain ⟨A, B, hAB⟩ := List.append_of_mem hn
    obtain ⟨pre, post, hcs, -, rfl, -⟩ := infosFrom_split hAB
    exact ⟨pre, post, hcs, by simpa using h1, by simpa using h2⟩
  · rintro ⟨pre, post, rfl, h1, h2⟩
    refine ⟨headInfo base start (topAfter Chunk.data top pre) post, ?_, by simpa using h1,
      by simpa using h2⟩
    rw [infosFrom_append, infosFrom_eq]
    simp

/-- The free space of a zone is its regions without the blocks in them. -/
theorem mem_freeSet (hr : Rep m gs) (hb : Books gs [] []) :
    x ∈ freeSet m z ↔ ∃ r ∈ gs, r.zone = z ∧ r.start ≤ x ∧ x < r.fin ∧
      ∀ p ∈ blocks gs, x < p.2.data ∨ p.2.dataend ≤ x := by
  have hin : x ∈ freeSet m z ↔ ∃ n ∈ zoneInfos z gs, n.dataend ≤ x ∧ x < n.allocend := by
    have hat := (hr z).infos
    simp only [freeSet, Set.mem_ofPred_eq, listRecords_zone hr hb, mem_addrs]
    constructor
    · rintro ⟨-, ⟨n, hn, rfl⟩, h1, h2⟩
      rw [(hat n hn).dataend] at h1
      rw [(hat n hn).allocend] at h2
      exact ⟨n, hn, h1, h2⟩
    · rintro ⟨n, hn, h1, h2⟩
      refine ⟨n.addr, ⟨n, hn, rfl⟩, ?_, ?_⟩
      · rwa [(hat n hn).dataend]
      · rwa [(hat n hn).allocend]
  have hslack : ∀ r ∈ gs, (∃ n ∈ r.infos, n.dataend ≤ x ∧ x < n.allocend) ↔
      r.start ≤ x ∧ x < r.fin ∧ ∀ c ∈ r.chunks, x < c.data ∨ c.dataend ≤ x :=
    fun r hr => infosFrom_slack.trans (hb.ok r hr).carved.slack_iff
  rw [hin]
  constructor
  · rintro ⟨n, hn, h1, h2⟩
    obtain ⟨r, hr, hz, hnr⟩ := mem_zoneInfos.mp hn
    obtain ⟨h3, h4, h5⟩ := (hslack r hr).mp ⟨n, hnr, h1, h2⟩
    refine ⟨r, hr, hz, h3, h4, fun p hp => ?_⟩
    obtain ⟨s, hs, -, hc⟩ := mem_blocks.mp hp
    by_cases hrs : r = s
    · subst hrs
      exact h5 p.2 hc
    · have : Std.Symm Region.Off := ⟨fun _ _ h => h.symm⟩
      have hoff := hb.off.forall hr hs hrs
      have := (hb.ok s hs).carved.bounds hc
      simp only [Region.Off] at hoff
      omega
  · rintro ⟨r, hr, hz, h3, h4, h5⟩
    obtain ⟨n, hnr, h1, h2⟩ := (hslack r hr).mpr
      ⟨h3, h4, fun c hc => h5 (r.zone, c) (mem_blocks.mpr ⟨r, hr, rfl, hc⟩)⟩
    exact ⟨n, mem_zoneInfos.mpr ⟨r, hr, hz, hnr⟩, h1, h2⟩

theorem blocks_of_no_users (hb : Books gs [] []) (hu : users gs = []) :
    (∀ p ∈ blocks gs, x < p.2.data ∨ p.2.dataend ≤ x) ↔
      ∀ a ∈ gs.map Region.addr, x + infoSize < a ∨ a + detailSize ≤ x + infoSize := by
  have hdet : ∀ p ∈ blocks gs, p.2.kind = .detail := by
    intro p hp
    cases hk : p.2.kind with
    | detail => rfl
    | user size align =>
      have : (⟨p.1, p.2.data, size, align⟩ : Block) ∈ users gs :=
        mem_users.mpr ⟨p, hp, hk, rfl, rfl⟩
      simp [hu] at this
  have howners : owners gs = gs.map Region.addr := by
    have : (blocks gs).filterMap asOwner = [] := by
      refine List.filterMap_eq_nil_iff.mpr fun p hp => ?_
      obtain ⟨z, c⟩ := p
      have := hdet _ hp
      simp only at this
      simp [asOwner, this]
    rw [owners, this, List.append_nil]
  have hbal := hb.balance
  rw [List.append_nil, List.append_nil, howners] at hbal
  constructor
  · intro h a ha
    obtain ⟨d, hd, rfl⟩ := List.mem_map.mp (hbal.mem_iff.mp ha)
    obtain ⟨p, hp, hk, rfl⟩ := mem_details.mp hd
    have hok := hb.block_ok hp
    simp only [Chunk.Ok, hk] at hok
    have := h p hp
    simp only [datainfo]
    omega
  · intro h p hp
    have hk := hdet p hp
    have hok := hb.block_ok hp
    simp only [Chunk.Ok, hk] at hok
    have := h (datainfo p.2.data) (hbal.mem_iff.mpr
      (List.mem_map.mpr ⟨_, mem_details.mpr ⟨p, hp, hk, rfl⟩, rfl⟩))
    simp only [datainfo] at this
    omega

/-- Zones with the same regions and no allocation have the same free space. -/
theorem freeSet_eq (hr : Rep m gs) (hb : Books gs [] []) (hr' : Rep m' gs') (hb' : Books gs' [] [])
    (hbare : gs'.map Region.bare = gs.map Region.bare) (hu : users gs = []) (hu' : users gs' = [])
    (z : Zone) : freeSet m' z = freeSet m z := by
  have hspan : ∀ {l : List Region} {x : Nat},
      (∃ r ∈ l, r.zone = z ∧ r.start ≤ x ∧ x < r.fin) ↔
        ∃ t ∈ l.map Region.span, t.1 = z ∧ t.2.1 ≤ x ∧ x < t.2.2 := by
    intro l x
    simp [Region.span]
  ext x
  rw [mem_freeSet hr hb, mem_freeSet hr' hb', blocks_of_no_users hb hu,
    blocks_of_no_users hb' hu', addr_of_bare hbare]
  have h : (∃ r ∈ gs', r.zone = z ∧ r.start ≤ x ∧ x < r.fin) ↔
      ∃ r ∈ gs, r.zone = z ∧ r.start ≤ x ∧ x < r.fin := by
    rw [hspan, span_of_bare hbare, ← hspan]
  constructor
  · rintro ⟨r, hr, hz, h1, h2, h3⟩
    obtain ⟨s, hs, hz', h1', h2'⟩ := h.mp ⟨r, hr, hz, h1, h2⟩
    exact ⟨s, hs, hz', h1', h2', h3⟩
  · rintro ⟨r, hr, hz, h1, h2, h3⟩
    obtain ⟨s, hs, hz', h1', h2'⟩ := h.mpr ⟨r, hr, hz, h1, h2⟩
    exact ⟨s, hs, hz', h1', h2', h3⟩

end Free

theorem Holds.step_bare {s : AllocState} {gs : List Region} {op : AllocOp} (h : Holds s gs)
    (hok : op.Ok s ∧ op.AddsNone) (hw : ¬ op.Wraps s) :
    ∃ s' gs', op.run s = some s' ∧ Holds s' gs' ∧ gs'.map Region.bare = gs.map Region.bare := by
  obtain ⟨hok, hadd⟩ := hok
  cases op with
  | add z a e => exact hadd.elim
  | malloc z size align =>
    obtain ⟨p, m', gs', heq, h', hb, -⟩ := h.malloc hw
    exact ⟨_, gs', by simp only [AllocOp.run, heq]; rfl, h', hb⟩
  | free data =>
    rcases h.free data with ⟨heq, -⟩ | ⟨m', gs', heq, -, h', hb, -⟩
    · exact ⟨s, gs, by simp [AllocOp.run, heq], h, rfl⟩
    · exact ⟨_, gs', by simp only [AllocOp.run, heq]; rfl, h', hb⟩
  | write m => exact ⟨_, gs, rfl, h.write hok, rfl⟩

theorem Holds.run {s₀ s : AllocState} {gs₀ : List Region} (h₀ : Holds s₀ gs₀)
    (h : AllocRun (fun s op => (op.Ok s ∧ op.AddsNone) ∧ ¬ op.Wraps s) s₀ s) :
    ∃ gs, Holds s gs ∧ gs.map Region.bare = gs₀.map Region.bare := by
  induction h with
  | refl => exact ⟨gs₀, h₀, rfl⟩
  | step _ hp hrun ih =>
    obtain ⟨gs, hgs, hbare⟩ := ih
    obtain ⟨s', gs', heq, h', hb⟩ := hgs.step_bare hp.1 hp.2
    rw [hrun] at heq
    exact ⟨gs', Option.some.inj heq ▸ h', hb.trans hbare⟩

/-- Once everything allocated since is freed, the free space is what it was. -/
theorem alloc_gives_back (s₀ s : AllocState)
    (h₀ : AllocReach (fun s op => op.Ok s ∧ ¬ op.Wraps s) s₀) (hlive₀ : s₀.live = [])
    (h : AllocRun (fun s op => (op.Ok s ∧ op.AddsNone) ∧ ¬ op.Wraps s) s₀ s) (hlive : s.live = [])
    (z : Zone) : freeSet s.mem z = freeSet s₀.mem z := by
  obtain ⟨gs₀, hgs₀⟩ := holds_of_reach h₀
  obtain ⟨gs, hgs, hbare⟩ := hgs₀.run h
  have hu₀ : users gs₀ = [] := by simpa [hlive₀] using hgs₀.live
  have hu : users gs = [] := by simpa [hlive] using hgs.live
  exact freeSet_eq hgs₀.rep hgs₀.books hgs.rep hgs.books hbare hu₀ hu z

/-- `okTest` for calls that do not wrap and add no region. -/
def callTest (s : AllocState) (op : AllocOp) : Bool :=
  roomTest s op && match op with
    | .add _ _ _ => false
    | _ => true

theorem callTest_ok (s : AllocState) (op : AllocOp) (h : callTest s op = true) :
    (op.Ok s ∧ op.AddsNone) ∧ ¬ op.Wraps s := by
  simp only [callTest, Bool.and_eq_true] at h
  obtain ⟨hok, hw⟩ := roomTest_ok s op h.1
  refine ⟨⟨hok, ?_⟩, hw⟩
  cases op with
  | add z a e => simp at h
  | _ => trivial

theorem alloc_gives_back_run : ∃ s₀ s : AllocState,
    runOps roomTest emptyZones [.add .tmpHigh 0x100000 0x200000, .add .high 0x300000 0x310000] =
      some s₀ ∧
    runOps callTest s₀ [.malloc .high 4096 4096, .malloc .tmpHigh 64 16, .malloc .high 32 16,
      .free 0x30f000, .malloc .tmpHigh 100 16, .free 0x30efe0, .free 0x1fff00, .free 0x1ffe60] =
      some s ∧
    ∀ z, freeSet s.mem z = freeSet s₀.mem z := by
  have hrun : ((runOps roomTest emptyZones
      [.add .tmpHigh 0x100000 0x200000, .add .high 0x300000 0x310000]).bind fun s₀ =>
        (runOps callTest s₀ [.malloc .high 4096 4096, .malloc .tmpHigh 64 16, .malloc .high 32 16,
          .free 0x30f000, .malloc .tmpHigh 100 16, .free 0x30efe0, .free 0x1fff00,
          .free 0x1ffe60]).map fun s => (s₀.live, s.live)) = some ([], []) := by
    decide +kernel
  obtain ⟨s₀, h₀, hs⟩ := Option.bind_eq_some_iff.mp hrun
  obtain ⟨s, h, heq⟩ := Option.map_eq_some_iff.mp hs
  obtain ⟨hl₀, hl⟩ := Prod.mk.inj heq
  exact ⟨s₀, s, h₀, h, alloc_gives_back s₀ s ⟨_, fun _ => rfl, .of_runOps roomTest_ok h₀⟩ hl₀
    (.of_runOps callTest_ok h) hl⟩

def freeTest (m : Mem) (z : Zone) (x : Nat) : Bool :=
  (listRecords m walkFuel z.head).any fun a => m (a + 12) ≤ x && x < m (a + 16)

theorem freeTest_iff : freeTest m z x = true ↔ x ∈ freeSet m z := by
  simp [freeTest, freeSet]

/-- `okTest` for successful calls that add no region. -/
def successTest (s : AllocState) (op : AllocOp) : Bool := op.okTest s && op.succeeds s

theorem successTest_ok (s : AllocState) (op : AllocOp) (h : successTest s op = true) :
    op.Ok s ∧ op.AddsNone ∧ op.succeeds s = true := by
  simp only [successTest, Bool.and_eq_true] at h
  refine ⟨okTest_ok h.1, ?_, h.2⟩
  cases op with
  | add z a e => simp [AllocOp.succeeds] at h
  | _ => trivial

/-- A request just short of 4 GiB is granted with its end wrapped; the space
behind it overlaps the record of another zone, and a later detail record in
it makes that zone's space disappear. -/
theorem malloc_wraps_leaks :
    ¬ ∀ s₀ s : AllocState, AllocReach (fun s op => op.Ok s) s₀ → s₀.live = [] →
      AllocRun (fun s op => op.Ok s ∧ op.AddsNone ∧ op.succeeds s = true) s₀ s → s.live = [] →
      ∀ z, freeSet s.mem z = freeSet s₀.mem z := by
  have hrun : ((runOps (fun s op => op.okTest s) emptyZones
      [.add .tmpHigh 0x280000 0x280060, .add .tmpHigh 0xe0000 0xfff60,
        .add .high 0x300000 0x310000, .add .tmpHigh 0x100000 0x1f0000]).bind fun s₀ =>
        (runOps successTest s₀ [.malloc .tmpHigh 0xfffff000 0x100000, .malloc .tmpHigh 0xefff0 16,
          .malloc .tmpHigh 16 16, .free 0xfff40, .free 0xfff80, .free 0x100000]).map fun s =>
          (s₀.live, s.live, freeTest s₀.mem .high 0x300000, freeTest s.mem .high 0x300000)) =
      some ([], [], true, false) := by
    decide +kernel
  obtain ⟨s₀, h₀, hs⟩ := Option.bind_eq_some_iff.mp hrun
  obtain ⟨s, h, heq⟩ := Option.map_eq_some_iff.mp hs
  simp only [Prod.mk.injEq] at heq
  obtain ⟨hl₀, hl, hf₀, hf⟩ := heq
  intro hall
  have heq := hall s₀ s ⟨_, fun _ => rfl, .of_runOps (fun _ _ h => okTest_ok h) h₀⟩ hl₀
    (.of_runOps successTest_ok h) hl .high
  have hin := freeTest_iff.mp hf₀
  rw [← heq, ← freeTest_iff, hf] at hin
  exact absurd hin (by simp)

end ItxLlama.Seabios
