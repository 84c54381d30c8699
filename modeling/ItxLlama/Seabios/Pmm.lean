import ItxLlama.Seabios.MallocLeak

/-!
# Post memory manager

`pmm.c` and the handles of `malloc.c`. Option ROMs allocate in paragraphs
through `handle_pmm`, name their blocks with a handle, and find and free them
later, while the BIOS goes on allocating from the same zones.
-/

namespace ItxLlama.Seabios

open Lib.Word Lib.Hlist Lib.Carve

def ffs (word : Nat) : Nat := ((List.range 32).find? word.testBit).getD 0

theorem ffs_spec (h0 : word ≠ 0) (hlt : word < 2 ^ 32) :
    word.testBit (ffs word) = true ∧ ffs word < 32 := by
  obtain ⟨i, hi⟩ := Nat.exists_testBit_of_ne_zero h0
  have hi32 : i < 32 := by
    by_contra hge
    have := Nat.testBit_lt_two_pow (Nat.lt_of_lt_of_le hlt (Nat.pow_le_pow_right (by decide)
      (Nat.le_of_not_lt hge)))
    simp [this] at hi
  cases hf : (List.range 32).find? word.testBit with
  | none => exact absurd hi (List.find?_eq_none.mp hf i (List.mem_range.mpr hi32))
  | some j =>
    simp only [ffs, hf, Option.getD_some]
    exact ⟨List.find?_some hf, List.mem_range.mp (List.mem_of_find?_eq_some hf)⟩

/-- No power of two above the lowest set bit divides the word. -/
theorem le_ffs (h0 : word ≠ 0) (hlt : word < 2 ^ 32) (hk : 2 ^ k ∣ word) : k ≤ ffs word := by
  obtain ⟨hbit, -⟩ := ffs_spec h0 hlt
  by_contra hlt'
  obtain ⟨c, rfl⟩ := hk
  simp [Nat.testBit_two_pow_mul] at hbit
  omega

theorem two_pow_ffs_le (h0 : word ≠ 0) (hlt : word < 2 ^ 32) : 2 ^ ffs word ≤ word :=
  Nat.ge_two_pow_of_testBit (ffs_spec h0 hlt).1

-- ---------------------------------------------------------------------------
-- Handles
-- ---------------------------------------------------------------------------

def mallocSethandle (m : Mem) (data handle : Nat) : Option Mem := do
  let info ← findAlloc m data
  if info = 0 ∨ data = info ∨ data = m (info + 12) then return m
  let detail := info - 20
  return store m (detail + 40) handle

/-- The loop of `malloc_findhandle` over the zones. A record whose `data` is
its own address is an `allocdetail_s`. -/
def findHandleIn (m : Mem) (handle : Nat) : List Zone → Option Nat
  | [] => some 0
  | zone :: rest => do
    let pprev ← hlistFind m (fun info => m (info + 8) = info && m (info + 40) = handle) walkFuel
      zone.head
    let detail := m pprev
    if detail = 0 then findHandleIn m handle rest else return m (detail + 28)

def mallocFindhandle (m : Mem) (handle : Nat) : Option Nat := findHandleIn m handle zones

-- ---------------------------------------------------------------------------
-- The calls
-- ---------------------------------------------------------------------------

def lowzone (flags : Nat) : Zone := if flags &&& 8 ≠ 0 then .low else .tmpLow

def highzone (flags : Nat) : Zone := if flags &&& 8 ≠ 0 then .high else .tmpHigh

def pmmAlign (flags size : Nat) : Nat :=
  if flags &&& 4 ≠ 0 then max (2 ^ ffs size) mallocMinAlign else mallocMinAlign

/-- The second `switch` of `handle_pmm00`. The zone is the one the block is in. -/
def pmmMalloc (m : Mem) (flags size : Nat) : Option (Zone × Nat × Mem) :=
  let align := pmmAlign flags size
  match flags &&& 3 with
  | 1 => (malloc m (lowzone flags) size align).map (Prod.mk (lowzone flags))
  | 2 => (malloc m (highzone flags) size align).map (Prod.mk (highzone flags))
  | 3 => do
    let (data, m) ← malloc m (lowzone flags) size align
    if data = 0 then (malloc m (highzone flags) size align).map (Prod.mk (highzone flags))
    else return (lowzone flags, data, m)
  | _ => some (lowzone flags, 0, m)

/-- The memory size request of `handle_pmm00`. -/
def pmmSpace (m : Mem) (flags : Nat) : Nat :=
  match flags &&& 3 with
  | 1 => mallocGetspace m (lowzone flags)
  | 2 => mallocGetspace m (highzone flags)
  | 3 =>
    let spacelow := mallocGetspace m (lowzone flags)
    let spacehigh := mallocGetspace m (highzone flags)
    if spacelow > spacehigh then spacelow else spacehigh
  | _ => 0

def handlePmm00 (m : Mem) (length handle flags : Nat) : Option (Nat × Mem) := do
  if length = 0 then return (pmmSpace m flags, m)
  let size := u32 (length * 16)
  -- (s32)size <= 0
  if size = 0 ∨ 2 ^ 31 ≤ size then return (0, m)
  let (_, data, m) ← pmmMalloc m flags size
  if data ≠ 0 ∧ handle ≠ mallocDefaultHandle then
    let m ← mallocSethandle m data handle
    return (data, m)
  else return (data, m)

def handlePmm01 (m : Mem) (handle : Nat) : Option Nat :=
  if handle = mallocDefaultHandle then some 0 else mallocFindhandle m handle

def handlePmm02 (m : Mem) (buffer : Nat) : Option (Nat × Mem) := do
  let (ret, m) ← free m buffer
  return (if ret ≠ 0 then 1 else 0, m)

-- ---------------------------------------------------------------------------
-- Runs
-- ---------------------------------------------------------------------------

/-- The allocator with the names that its live blocks were given: each is a
handle and an address. -/
structure PmmState extends AllocState where
  named : List (Nat × Nat)

/-- The BIOS's own use of the allocator, or a PMM call. -/
inductive PmmOp where
  | bios (op : AllocOp)
  | pmm00 (length handle flags : Nat)
  | pmm01 (handle : Nat)
  | pmm02 (buffer : Nat)

def dropName (data : Nat) (named : List (Nat × Nat)) : List (Nat × Nat) :=
  named.filter fun n => ¬ n.2 = data

/-- The call's result, and what it leaves. -/
def PmmOp.run (s : PmmState) : PmmOp → Option (Nat × PmmState)
  | .bios op => do
    let a ← op.run s.toAllocState
    let named := match op with
      | .free data => dropName data s.named
      | _ => s.named
    return (0, ⟨a, named⟩)
  | .pmm00 length handle flags => do
    let (data, m) ← handlePmm00 s.mem length handle flags
    if length = 0 ∨ data = 0 then return (data, { s with mem := m })
    let size := u32 (length * 16)
    let (zone, _, _) ← pmmMalloc s.mem flags size
    return (data, { s with
      mem := m
      live := ⟨zone, data, size, pmmAlign flags size⟩ :: s.live
      named := if handle ≠ mallocDefaultHandle then (handle, data) :: s.named else s.named })
  | .pmm01 handle => do
    let data ← handlePmm01 s.mem handle
    return (data, s)
  | .pmm02 buffer => do
    let (ret, m) ← handlePmm02 s.mem buffer
    if ret ≠ 0 then return (ret, { s with mem := m })
    return (ret, { s with
      mem := m
      live := s.live.filter fun b => ¬ b.ptr = buffer
      named := dropName buffer s.named })

/-- What the BIOS keeps to; the callers of PMM keep to nothing. -/
def PmmOp.Ok (s : PmmState) : PmmOp → Prop
  | .bios op => op.Ok s.toAllocState ∧ ¬ op.Wraps s.toAllocState ∧
      ∀ z a e, op = .add z a e → a < e
  | _ => True

/-- The states of runs from memory in which the zones are empty. -/
inductive PmmReach (P : PmmState → PmmOp → Prop) : PmmState → Prop
  | start (m : Mem) (h : ∀ z : Zone, m z.head = 0) : PmmReach P ⟨⟨m, [], []⟩, []⟩
  | step (h : PmmReach P s) (hp : P s op) (hrun : op.run s = some (ret, s')) : PmmReach P s'

/-- What a request for `length` paragraphs is promised of its block `b`. -/
structure Granted (live : List Block) (length flags : Nat) (b : Block) : Prop where
  long : 16 * length ≤ b.size
  aligned : flags &&& 4 ≠ 0 → ∀ k, 2 ^ k ∣ length → 2 ^ k ∣ b.ptr
  apart : ∀ c ∈ live, b.ptr + b.size ≤ c.ptr ∨ c.ptr + c.size ≤ b.ptr

/-- The memory holds the regions, and the handles of their details name the
live blocks. -/
structure Named (gs : List Region) (m : Mem) (named : List (Nat × Nat)) : Prop where
  held : ∀ n ∈ named, n.1 ≠ mallocDefaultHandle ∧ ∃ d, Owns gs d n.2 ∧ m (d + 40) = n.1
  listed : ∀ d ∈ details gs, m (d + 40) ≠ mallocDefaultHandle →
    ∃ p, Owns gs d p ∧ (m (d + 40), p) ∈ named

structure PmmHolds (s : PmmState) (gs : List Region) : Prop where
  alloc : Holds s.toAllocState gs
  named : Named gs s.mem s.named
  proper : ∀ r ∈ s.regions, r.2.1 < r.2.2

section Owners

variable {gs gs' gs'' : List Region} {m m' m'' : Mem} {named : List (Nat × Nat)} {d d' p p' : Nat}

theorem details_of_blocks (h : ∀ q ∈ blocks gs, q ∈ blocks gs') (hd : d ∈ details gs) :
    d ∈ details gs' := by
  obtain ⟨q, hq, hk, rfl⟩ := mem_details.mp hd
  exact mem_details.mpr ⟨q, h q hq, hk, rfl⟩

theorem Grows.trans (h : Grows gs m gs' m') (h' : Grows gs' m' gs'' m'') :
    Grows gs m gs'' m'' := by
  refine ⟨fun q hq => h'.blocks q (h.blocks q hq), ?_, fun d hd => ?_⟩
  · exact h.keeps.trans (h'.keeps.mono fun d hd => details_of_blocks h.blocks hd)
  · rcases h'.fresh d hd with hd' | hdef
    · rcases h.fresh d hd' with hd'' | hdef
      · exact .inl hd''
      · exact .inr ((h'.keeps d hd').trans hdef)
    · exact .inr hdef

theorem Owns.mono (h : ∀ q ∈ blocks gs, q ∈ blocks gs') (ho : Owns gs d p) : Owns gs' d p := by
  obtain ⟨q, hq, hrest⟩ := ho
  exact ⟨q, h q hq, hrest⟩

theorem Owns.mem_details (ho : Owns gs d p) (hb : Books gs [] []) : d ∈ details gs := by
  obtain ⟨q, hq, ⟨size, align, hk⟩, had, -⟩ := ho
  obtain ⟨z, d', hd', had'⟩ := hb.user_record hq hk
  have : d = d' := by
    simp only [datainfo] at had had'
    omega
  exact Seabios.mem_details.mpr ⟨_, hd', rfl, this.symm⟩

theorem Books.user_eq (hb : Books gs [] []) {q q' : Zone × Chunk} (hq : q ∈ blocks gs)
    (hq' : q' ∈ blocks gs) (heq : q.2.data = q'.2.data) : q = q' := by
  obtain ⟨-, -, -, -, hlt, -⟩ := hb.block_bounds hq
  obtain ⟨-, -, -, -, hlt', -⟩ := hb.block_bounds hq'
  exact hb.block_eq hq hq' (x := q.2.data) (by omega) (by omega) (Nat.le_refl _) hlt

theorem Named.grow (h : Named gs m named) (hg : Grows gs m gs' m') (hb : Books gs [] []) :
    Named gs' m' named := by
  refine ⟨fun n hn => ?_, fun d hd hne => ?_⟩
  · obtain ⟨hdef, d, ho, hm⟩ := h.held n hn
    exact ⟨hdef, d, ho.mono hg.blocks, (hg.keeps d (ho.mem_details hb)).trans hm⟩
  · rcases hg.fresh d hd with hd' | hdef
    · rw [hg.keeps d hd'] at hne ⊢
      obtain ⟨p, ho, hm⟩ := h.listed d hd' hne
      exact ⟨p, ho.mono hg.blocks, hm⟩
    · exact absurd hdef hne

theorem Named.set (h : Named gs m named) (ho : Owns gs d p) (hd : m (d + 40) = mallocDefaultHandle)
    (hh : handle ≠ mallocDefaultHandle) :
    Named gs (store m (d + 40) handle) ((handle, p) :: named) := by
  have hother : ∀ d', d' ≠ d → store m (d + 40) handle (d' + 40) = m (d' + 40) :=
    fun d' hne => store_ne _ _ (by omega)
  refine ⟨fun n hn => ?_, fun d' hd' hne => ?_⟩
  · rcases List.mem_cons.mp hn with rfl | hn
    · exact ⟨hh, d, ho, store_same ..⟩
    · obtain ⟨hdef, d', ho', hm⟩ := h.held n hn
      refine ⟨hdef, d', ho', (hother d' ?_).trans hm⟩
      rintro rfl
      exact hdef (hm.symm.trans hd)
  · by_cases hdd : d' = d
    · subst hdd
      exact ⟨p, ho, by simp⟩
    · rw [hother d' hdd] at hne ⊢
      obtain ⟨p', ho', hm⟩ := h.listed d' hd' hne
      exact ⟨p', ho', List.mem_cons_of_mem _ hm⟩

theorem Named.drop (h : Named gs m named) (hb : Books gs [] []) {c : Chunk} (hd : c.data = data)
    (had : c.addr = datainfo d) (hk : KeepsHandles gs m m')
    (hp : (blocks gs).Perm ((z, c) :: (z', detailChunk d) :: blocks gs')) :
    Named gs' m' (dropName data named) := by
  have hcm : (z, c) ∈ blocks gs := hp.mem_iff.mpr (by simp)
  have hsub : ∀ q ∈ blocks gs', q ∈ blocks gs := fun q hq => hp.mem_iff.mpr (by simp [hq])
  -- what is not the block stays
  have hstay : ∀ d' p, Owns gs d' p → p ≠ data → Owns gs' d' p := by
    rintro d' p ⟨q, hq, ⟨size, align, hk'⟩, hqa, hqp⟩ hne
    refine ⟨q, ?_, ⟨size, align, hk'⟩, hqa, hqp⟩
    rcases List.mem_cons.mp (hp.mem_iff.mp hq) with rfl | hq'
    · exact absurd (hqp.symm.trans hd) hne
    · rcases List.mem_cons.mp hq' with rfl | hq'
      · simp [detailChunk] at hk'
      · exact hq'
  refine ⟨fun n hn => ?_, fun d' hd' hne => ?_⟩
  · simp only [dropName, List.mem_filter, decide_not, Bool.not_eq_true',
      decide_eq_false_iff_not] at hn
    obtain ⟨hdef, d', ho, hm⟩ := h.held n hn.1
    exact ⟨hdef, d', hstay d' _ ho hn.2, (hk d' (ho.mem_details hb)).trans hm⟩
  · have hdg := details_of_blocks hsub hd'
    rw [hk d' hdg] at hne ⊢
    obtain ⟨p, ho, hm⟩ := h.listed d' hdg hne
    have hpd : p ≠ data := by
      rintro rfl
      obtain ⟨q, hq, -, hqa, hqp⟩ := ho
      cases hb.user_eq hq hcm (hqp.trans hd.symm)
      have hdd : d = d' := by
        simp only at hqa
        simp only [datainfo] at had hqa
        omega
      have hpw := ((hp.filterMap asDetail).pairwise_iff fun h => h.symm).mp hb.details_apart
      cases hk' : c.kind with
      | detail =>
        simp only [List.filterMap_cons, asDetail, hk', detailChunk] at hpw
        exact absurd hdd (((List.pairwise_cons.mp (List.pairwise_cons.mp hpw).2).1 d' hd').ne
          (by decide))
      | user size align =>
        simp only [List.filterMap_cons, asDetail, hk', detailChunk] at hpw
        exact absurd hdd (((List.pairwise_cons.mp hpw).1 d' hd').ne (by decide))
    refine ⟨p, hstay d' p ho hpd, ?_⟩
    simp [dropName, hm, hpd]

end Owners

section Calls

variable {s s' : PmmState} {gs gs' : List Region} {m : Mem} {named : List (Nat × Nat)} {d p : Nat}

theorem mallocSethandle_spec (hr : Rep m gs) (hb : Books gs [] [])
    (hproper : ∀ r ∈ gs, r.start ≠ r.fin) (ho : Owns gs d p) (handle : Nat) :
    mallocSethandle m p handle = some (store m (d + 40) handle) := by
  obtain ⟨q, hq, ⟨size, align, hk⟩, had, hp⟩ := ho
  obtain ⟨info, hfind, ⟨-, hall⟩ | ⟨hyes, q', hq', -, -, -, hp', rfl⟩⟩ := findAlloc_spec hr hb p
  · obtain ⟨r, hrm, hempty, -⟩ := hall q hq size align hk hp
    exact absurd hempty (hproper r hrm)
  · cases hb.user_eq hq hq' (hp.trans hp'.symm)
    have hsub : q.2.addr - 20 = d := by simp [had, datainfo, infoSize]
    simp only [mallocSethandle, hfind, Option.bind_eq_bind, Option.bind_some, if_neg hyes, hsub]
    rfl

theorem Owns.data_word (ho : Owns gs d p) (hr : Rep m gs) : m (d + 28) = p := by
  obtain ⟨q, hq, -, had, hp⟩ := ho
  obtain ⟨gs₁, r, pre, post, gs₂, rfl, hz⟩ := blocks_split hq
  have hat := (hr r.zone).infos ⟨q.2.addr, q.2.data, q.2.dataend, topAfter Chunk.data r.fin pre⟩ (by
    rw [zoneInfos_insert]
    simp)
  have := hat.data
  rw [had, datainfo, infoSize] at this
  exact this.trans hp

theorem mem_detail_record (hr : Rep m gs) (hb : Books gs [] []) (hd : d ∈ details gs) :
    ∃ z, ∃ n ∈ zoneInfos z gs, n.addr = d ∧ m (d + 8) = d := by
  obtain ⟨q, hq, hk, rfl⟩ := mem_details.mp hd
  have hok := hb.block_ok hq
  simp only [Chunk.Ok, hk] at hok
  obtain ⟨gs₁, r, pre, post, gs₂, rfl, hz⟩ := blocks_split hq
  have hin : (⟨q.2.addr, q.2.data, q.2.dataend, topAfter Chunk.data r.fin pre⟩ : AllocInfo) ∈
      zoneInfos r.zone (gs₁ ++ r.put (pre ++ q.2 :: post) :: gs₂) := by
    rw [zoneInfos_insert]
    simp
  refine ⟨r.zone, _, hin, hok.1, ?_⟩
  have := ((hr r.zone).infos _ hin).data
  simpa only [hok.1] using this

theorem detail_of_record (hr : Rep m gs) (hb : Books gs [] []) {n : AllocInfo}
    (hn : n ∈ zoneInfos z gs) (hself : m (n.addr + 8) = n.addr) : n.addr ∈ details gs := by
  have hz : n.addr ∈ zoneRecords m := by
    refine List.mem_flatMap.mpr ⟨z, by cases z <;> simp [zones], ?_⟩
    rw [listRecords_zone hr hb]
    exact mem_addrs.mpr ⟨n, hn, rfl⟩
  obtain ⟨d, hd, heq | heq⟩ := mem_zoneRecords hr hb hz
  · exact heq ▸ hd
  · have := recordSize_datainfo hr hb (heq ▸ hz) hd
    rw [← heq, recordSize, if_pos hself] at this
    exact absurd this (by decide)

theorem findHandleIn_spec (hr : Rep m gs) (hb : Books gs [] []) (handle : Nat) (zs : List Zone) :
    (findHandleIn m handle zs = some 0 ∧
      ∀ z ∈ zs, ∀ n ∈ zoneInfos z gs, m (n.addr + 8) = n.addr → m (n.addr + 40) ≠ handle) ∨
    ∃ d ∈ details gs, m (d + 40) = handle ∧ findHandleIn m handle zs = some (m (d + 28)) := by
  induction zs with
  | nil => exact .inl ⟨rfl, by simp⟩
  | cons z zs ih =>
    obtain ⟨pprev, hfind, ⟨hend, hA⟩ | ⟨A, x, B, hAB, -, hx, hnext, hx0⟩⟩ :=
      hr.find hb z (fun info => m (info + 8) = info && m (info + 40) = handle)
    · have hstep : findHandleIn m handle (z :: zs) = findHandleIn m handle zs := by
        simp [findHandleIn, hfind, hend]
      rw [hstep]
      refine ih.imp (fun ⟨h1, h2⟩ => ⟨h1, List.forall_mem_cons.mpr ⟨fun n hn hself => ?_, h2⟩⟩) id
      have := hA n hn
      simp_all
    · simp only [Bool.and_eq_true, decide_eq_true_eq] at hx
      refine .inr ⟨x.addr, detail_of_record hr hb (by rw [hAB]; simp) hx.1, hx.2, ?_⟩
      simp [findHandleIn, hfind, hnext, hx0]

theorem mallocFindhandle_spec (hr : Rep m gs) (hb : Books gs [] []) (hn : Named gs m named)
    (hh : handle ≠ mallocDefaultHandle) : ∃ p, mallocFindhandle m handle = some p ∧
      (p = 0 → ∀ q, (handle, q) ∉ named) ∧ (p ≠ 0 → (handle, p) ∈ named) := by
  rcases findHandleIn_spec hr hb handle zones with ⟨h0, hall⟩ | ⟨d, hd, rfl, hfind⟩
  · refine ⟨0, h0, fun _ q hq => ?_, absurd rfl⟩
    obtain ⟨-, d, ho, hm⟩ := hn.held _ hq
    obtain ⟨z, n, hnz, rfl, hself⟩ := mem_detail_record hr hb (ho.mem_details hb)
    exact hall z (by cases z <;> simp [zones]) n hnz hself hm
  · obtain ⟨p, ho, hm⟩ := hn.listed d hd hh
    rw [ho.data_word hr] at hfind
    refine ⟨p, hfind, ?_, fun _ => hm⟩
    rintro rfl
    obtain ⟨q, hq, -, -, hp⟩ := ho
    obtain ⟨r, hrm, -, hlo, -⟩ := hb.block_bounds hq
    have := (hb.ok r hrm).pos
    omega

end Calls

end ItxLlama.Seabios
