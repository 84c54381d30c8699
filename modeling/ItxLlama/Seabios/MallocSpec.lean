import ItxLlama.Seabios.MallocRep

/-!
# What the allocator's functions do to the zones

`allocSpace` cuts a block off the slack of the first record that accepts the
request, `freeSpace` takes a block out, and the books stay balanced. A
request that is taken where the slack ends below its size has wrapped; with
that excluded, every block lies in its slack.
-/

namespace ItxLlama.Seabios

open Lib.Word Lib.Hlist Lib.Carve

/-- The region with other blocks. -/
def Region.put (r : Region) (cs : List Chunk) : Region := { r with chunks := cs }

@[simp] theorem put_zone (r : Region) (cs : List Chunk) : (r.put cs).zone = r.zone := rfl
@[simp] theorem put_start (r : Region) (cs : List Chunk) : (r.put cs).start = r.start := rfl
@[simp] theorem put_fin (r : Region) (cs : List Chunk) : (r.put cs).fin = r.fin := rfl
@[simp] theorem put_addr (r : Region) (cs : List Chunk) : (r.put cs).addr = r.addr := rfl
@[simp] theorem put_chunks (r : Region) (cs : List Chunk) : (r.put cs).chunks = cs := rfl
@[simp] theorem put_bare (r : Region) (cs : List Chunk) : (r.put cs).bare = r.bare := rfl

@[simp] theorem headInfo_dataend (base start top : Nat) (post : List Chunk) :
    (headInfo base start top post).dataend = botBefore Chunk.dataend start post := by
  cases post <;> rfl

@[simp] theorem headInfo_allocend (base start top : Nat) (post : List Chunk) :
    (headInfo base start top post).allocend = top := by
  cases post <;> rfl

theorem headInfo_top (base start top top' : Nat) (post : List Chunk) :
    { headInfo base start top post with allocend := top' } = headInfo base start top' post := by
  cases post <;> rfl

-- ---------------------------------------------------------------------------
-- Cutting a block, and taking it out
-- ---------------------------------------------------------------------------

section Edit

variable {gs₁ gs₂ : List Region} {r : Region} {pre post : List Chunk} {c : Chunk}
  {pend pend' tmp : List Nat}

theorem blocks_edit (gs₁ gs₂ : List Region) (r : Region) (pre post : List Chunk) (c : Chunk) :
    (blocks (gs₁ ++ r.put (pre ++ c :: post) :: gs₂)).Perm
      ((r.zone, c) :: blocks (gs₁ ++ r.put (pre ++ post) :: gs₂)) := by
  have h : ∀ cs, blocks (gs₁ ++ r.put cs :: gs₂) =
      blocks gs₁ ++ (cs.map (Prod.mk r.zone) ++ blocks gs₂) := by
    intro cs
    simp [blocks]
  rw [h, h, List.map_append, List.map_append, List.map_cons, List.append_assoc, List.append_assoc,
    List.cons_append, ← List.append_assoc, ← List.append_assoc]
  exact List.perm_middle

theorem bare_edit (gs₁ gs₂ : List Region) (r : Region) (cs cs' : List Chunk) :
    (gs₁ ++ r.put cs :: gs₂).map Region.bare = (gs₁ ++ r.put cs' :: gs₂).map Region.bare := by
  simp

theorem off_of_bare {gs gs' : List Region} (h : gs'.map Region.bare = gs.map Region.bare)
    (ho : gs.Pairwise Region.Off) : gs'.Pairwise Region.Off := by
  have key : ∀ l : List Region, (l.map Region.bare).Pairwise Region.Off ↔ l.Pairwise Region.Off :=
    fun l => List.pairwise_map
  rw [← key, h, key]
  exact ho

theorem addr_of_bare {gs gs' : List Region} (h : gs'.map Region.bare = gs.map Region.bare) :
    gs'.map Region.addr = gs.map Region.addr := by
  have key : ∀ l : List Region, (l.map Region.bare).map Region.addr = l.map Region.addr :=
    fun l => by simp [Function.comp_def, Region.bare]
  rw [← key, h, key]

theorem owners_edit (gs₁ gs₂ : List Region) (r : Region) (pre post : List Chunk) (c : Chunk) :
    (owners (gs₁ ++ r.put (pre ++ c :: post) :: gs₂)).Perm
      ((asOwner (r.zone, c)).toList ++ owners (gs₁ ++ r.put (pre ++ post) :: gs₂)) := by
  have := (blocks_edit gs₁ gs₂ r pre post c).filterMap asOwner
  rw [owners, owners, addr_of_bare (bare_edit gs₁ gs₂ r (pre ++ c :: post) (pre ++ post))]
  refine (this.append_left _).trans ?_
  rw [List.filterMap_cons]
  cases asOwner (r.zone, c) with
  | none => exact .refl _
  | some a => exact List.perm_middle

theorem Books.insert (h : Books (gs₁ ++ r.put (pre ++ post) :: gs₂) pend tmp) (hc : c.Ok)
    (hlo : botBefore Chunk.dataend r.start post ≤ c.data) (hlt : c.data < c.dataend)
    (hhi : c.dataend ≤ topAfter Chunk.data r.fin pre)
    (hb : (owners (gs₁ ++ r.put (pre ++ c :: post) :: gs₂) ++ pend').Perm
      ((details (gs₁ ++ r.put (pre ++ c :: post) :: gs₂)).map datainfo ++ tmp)) :
    Books (gs₁ ++ r.put (pre ++ c :: post) :: gs₂) pend' tmp := by
  refine ⟨fun s hs => ?_, off_of_bare (bare_edit ..) h.off, hb, h.tmp⟩
  have hr := h.ok (r.put (pre ++ post)) (by simp)
  have hok : (r.put (pre ++ c :: post)).Ok := by
    refine ⟨hr.pos, hr.word, hr.carved.insert hlo hlt hhi, fun d hd => ?_⟩
    simp only [put_chunks, List.mem_append, List.mem_cons] at hd
    rcases hd with hd | rfl | hd
    · exact hr.chunks d (by simp [hd])
    · exact hc
    · exact hr.chunks d (by simp [hd])
  rcases List.mem_append.mp hs with hs | hs
  · exact h.ok s (by simp [hs])
  · rcases List.mem_cons.mp hs with rfl | hs
    · exact hok
    · exact h.ok s (by simp [hs])

theorem Books.delete (h : Books (gs₁ ++ r.put (pre ++ c :: post) :: gs₂) pend tmp)
    (hb : (owners (gs₁ ++ r.put (pre ++ post) :: gs₂) ++ pend').Perm
      ((details (gs₁ ++ r.put (pre ++ post) :: gs₂)).map datainfo ++ tmp)) :
    Books (gs₁ ++ r.put (pre ++ post) :: gs₂) pend' tmp := by
  refine ⟨fun s hs => ?_, off_of_bare (bare_edit ..) h.off, hb, h.tmp⟩
  have hr := h.ok (r.put (pre ++ c :: post)) (by simp)
  have hok : (r.put (pre ++ post)).Ok := by
    refine ⟨hr.pos, hr.word, hr.carved.delete, fun d hd => hr.chunks d ?_⟩
    simp only [put_chunks, List.mem_append, List.mem_cons] at hd ⊢
    tauto
  rcases List.mem_append.mp hs with hs | hs
  · exact h.ok s (by simp [hs])
  · rcases List.mem_cons.mp hs with rfl | hs
    · exact hok
    · exact h.ok s (by simp [hs])

/-- A detail record cut off a slack waits for its owner. -/
theorem Books.insert_detail (h : Books (gs₁ ++ r.put (pre ++ post) :: gs₂) [] tmp)
    (hlo : botBefore Chunk.dataend r.start post ≤ d)
    (hhi : d + detailSize ≤ topAfter Chunk.data r.fin pre) :
    Books (gs₁ ++ r.put (pre ++ ⟨d, d, d + detailSize, .detail⟩ :: post) :: gs₂) [datainfo d] tmp := by
  refine h.insert ⟨rfl, rfl⟩ hlo (by simp [detailSize]) hhi ?_
  have ho := owners_edit gs₁ gs₂ r pre post ⟨d, d, d + detailSize, .detail⟩
  have hd := (blocks_edit gs₁ gs₂ r pre post ⟨d, d, d + detailSize, .detail⟩).filterMap asDetail
  have hb := h.balance
  rw [List.append_nil] at hb
  refine (ho.append_right _).trans (List.perm_append_comm.trans ?_)
  refine ((hb.cons (datainfo d)).trans ?_)
  exact ((hd.map datainfo).append_right tmp).symm

theorem Books.delete_detail
    (h : Books (gs₁ ++ r.put (pre ++ c :: post) :: gs₂) [datainfo c.data] tmp)
    (hk : c.kind = .detail) : Books (gs₁ ++ r.put (pre ++ post) :: gs₂) [] tmp := by
  refine h.delete ?_
  have ho := owners_edit gs₁ gs₂ r pre post c
  have hd := (blocks_edit gs₁ gs₂ r pre post c).filterMap asDetail
  simp only [asOwner, hk, Option.toList_none, List.nil_append] at ho
  simp only [List.filterMap_cons, asDetail, hk] at hd
  have hb := (ho.symm.append_right [datainfo c.data]).trans
    (h.balance.trans ((hd.map datainfo).append_right tmp))
  rw [List.append_nil]
  exact (List.perm_append_comm.trans hb).cons_inv

theorem Books.insert_user (h : Books (gs₁ ++ r.put (pre ++ post) :: gs₂) [a] tmp) (hsize : 0 < size)
    (hlo : botBefore Chunk.dataend r.start post ≤ p)
    (hhi : p + size ≤ topAfter Chunk.data r.fin pre) (hal : align ∣ p) :
    Books (gs₁ ++ r.put (pre ++ ⟨a, p, p + size, .user size align⟩ :: post) :: gs₂) [] tmp := by
  refine h.insert ⟨rfl, hal⟩ hlo (by simp [hsize]) hhi ?_
  have ho := owners_edit gs₁ gs₂ r pre post ⟨a, p, p + size, .user size align⟩
  have hd := (blocks_edit gs₁ gs₂ r pre post ⟨a, p, p + size, .user size align⟩).filterMap asDetail
  rw [List.append_nil]
  refine ho.trans ((List.perm_append_comm.trans h.balance).trans ?_)
  exact ((hd.map datainfo).append_right tmp).symm

theorem Books.delete_user (h : Books (gs₁ ++ r.put (pre ++ c :: post) :: gs₂) [] tmp)
    (hk : c.kind = .user size align) : Books (gs₁ ++ r.put (pre ++ post) :: gs₂) [c.addr] tmp := by
  refine h.delete ?_
  have ho := owners_edit gs₁ gs₂ r pre post c
  have hd := (blocks_edit gs₁ gs₂ r pre post c).filterMap asDetail
  simp only [asOwner, hk, Option.toList_some] at ho
  simp only [List.filterMap_cons, asDetail, hk] at hd
  have hb := h.balance
  rw [List.append_nil] at hb
  exact (List.perm_append_comm.trans (ho.symm.trans hb)).trans ((hd.map datainfo).append_right tmp)

end Edit

-- ---------------------------------------------------------------------------
-- Reserving and freeing space
-- ---------------------------------------------------------------------------

/-- The writes of `allocSpace` once it has found its place. -/
def reserveAt (m : Mem) (fill new de allocend info : Nat) : Mem :=
  hlistAddBefore (store (store (store (store m (fill + 8) new) (fill + 12) de) (fill + 16) allocend)
    (info + 16) new) fill info

section Reserve

variable {m : Mem} {gs₁ gs₂ : List Region} {r : Region} {pre post : List Chunk} {c : Chunk}
  {pend tmp : List Nat}

theorem zoneInfos_put_other (gs₁ gs₂ : List Region) (r : Region) (cs cs' : List Chunk)
    (hz : z ≠ r.zone) :
    zoneInfos z (gs₁ ++ r.put cs :: gs₂) = zoneInfos z (gs₁ ++ r.put cs' :: gs₂) :=
  zoneInfos_swap gs₁ gs₂ (Ne.symm hz) (Ne.symm hz)

theorem zoneInfos_insert (gs₁ gs₂ : List Region) (r : Region) (pre post : List Chunk) (c : Chunk) :
    zoneInfos r.zone (gs₁ ++ r.put (pre ++ c :: post) :: gs₂) =
      (zoneInfos r.zone gs₁ ++ preInfos r.fin pre) ++
        ⟨c.addr, c.data, c.dataend, topAfter Chunk.data r.fin pre⟩ ::
          headInfo r.addr r.start c.data post ::
            (tailInfos r.addr r.start post ++ zoneInfos r.zone gs₂) := by
  refine (zoneInfos_region (z := r.zone) (r := r.put (pre ++ c :: post)) rfl rfl gs₁ gs₂).trans ?_
  show _ ++ _ :: (infosFrom r.addr r.start c.data post ++ _) = _
  rw [infosFrom_eq, List.cons_append]
  rfl

theorem zoneInfos_put (gs₁ gs₂ : List Region) (r : Region) (pre post : List Chunk) :
    zoneInfos r.zone (gs₁ ++ r.put (pre ++ post) :: gs₂) =
      (zoneInfos r.zone gs₁ ++ preInfos r.fin pre) ++
        headInfo r.addr r.start (topAfter Chunk.data r.fin pre) post ::
          (tailInfos r.addr r.start post ++ zoneInfos r.zone gs₂) :=
  zoneInfos_region (r := r.put (pre ++ post)) rfl rfl _ _

theorem mem_owned {gs : List Region} (h : Books gs pend tmp) (ha : a ∈ addrs (zoneInfos z gs)) :
    a ∈ details gs ++ (owners gs ++ pend) := by
  have := (records_perm h.ok).mem_iff.mp
    (List.mem_map.mpr ⟨(z, a), mem_records_zone.mpr ha, rfl⟩)
  simp only [List.mem_append] at this ⊢
  tauto

/-- Stores into the records of one zone's list keep the details' handles. -/
theorem KeepsHandles.of_zone {gs : List Region} (hb : Books gs pend tmp) {T : List Nat}
    (ht : Touches T m m') (hT : ∀ t ∈ T, t ∈ z.head :: addrs (zoneInfos z gs)) :
    KeepsHandles gs m m' :=
  KeepsHandles.of_touches hb ht fun t htm =>
    (List.mem_cons.mp (hT t htm)).imp (fun heq => ⟨z, heq⟩) (mem_owned hb)

theorem Rep.reserve (h : Rep m (gs₁ ++ r.put (pre ++ post) :: gs₂))
    (hb : Books (gs₁ ++ r.put (pre ++ c :: post) :: gs₂) pend tmp) :
    let x := headInfo r.addr r.start (topAfter Chunk.data r.fin pre) post
    Rep (reserveAt m c.addr c.data c.dataend x.allocend x.addr)
        (gs₁ ++ r.put (pre ++ c :: post) :: gs₂) ∧
      KeepsHandles (gs₁ ++ r.put (pre ++ c :: post) :: gs₂) m
        (reserveAt m c.addr c.data c.dataend x.allocend x.addr) := by
  intro x
  have hl := h r.zone
  rw [zoneInfos_put] at hl
  have hsep := hb.separate r.zone
  have hzi := zoneInfos_insert gs₁ gs₂ r pre post c
  have hrec : (r.zone, c.addr) ∈ records (gs₁ ++ r.put (pre ++ c :: post) :: gs₂) := by
    rw [mem_records_zone, hzi]
    simp
  have hxaddr : (headInfo r.addr r.start c.data post).addr = x.addr := by cases post <;> rfl
  have hsep' := hsep
  rw [hzi] at hsep'
  obtain ⟨hlist, ht⟩ := hl.reserve c.data c.dataend
    (Nat.ne_of_gt (hb.record_bounds hrec).1) (by simpa [hxaddr, x] using hsep')
  rw [headInfo_top] at hlist
  have hsub : ∀ t ∈ r.zone.head :: c.addr :: addrs (zoneInfos r.zone (gs₁ ++ r.put (pre ++ post) :: gs₂)),
      t ∈ r.zone.head :: addrs (zoneInfos r.zone (gs₁ ++ r.put (pre ++ c :: post) :: gs₂)) := by
    rw [hzi, zoneInfos_put]
    simp only [addrs_append, addrs_cons, List.mem_cons, List.mem_append, hxaddr, x]
    tauto
  rw [← zoneInfos_put] at ht
  refine ⟨h.update (z := r.zone) ?_ (ht.mono hsub) (fun z hz => zoneInfos_put_other _ _ _ _ _ hz)
    fun z hz => hb.zones_apart hz, KeepsHandles.of_zone hb ht hsub⟩
  rw [hzi]
  simpa [x, reserveAt] using hlist

theorem Rep.free (h : Rep m (gs₁ ++ r.put (pre ++ c :: post) :: gs₂))
    (hb : Books (gs₁ ++ r.put (pre ++ c :: post) :: gs₂) pend tmp) :
    Rep (freeSpace m c.addr) (gs₁ ++ r.put (pre ++ post) :: gs₂) ∧
      KeepsHandles (gs₁ ++ r.put (pre ++ c :: post) :: gs₂) m (freeSpace m c.addr) := by
  have hl := h r.zone
  have hsep := hb.separate r.zone
  have hzi := zoneInfos_insert gs₁ gs₂ r pre post c
  have hsep' := hsep
  rw [hzi] at hl hsep'
  obtain ⟨hlist, ht⟩ := hl.free (by simp) hsep'
  rw [headInfo_top, ← zoneInfos_put] at hlist
  rw [← hzi] at ht
  have hxaddr : ∀ top top', (headInfo r.addr r.start top post).addr =
      (headInfo r.addr r.start top' post).addr := by
    intro top top'
    cases post <;> rfl
  refine ⟨h.update (z := r.zone) hlist ht (fun z hz => zoneInfos_put_other _ _ _ _ _ hz)
    fun z hz => ?_, KeepsHandles.of_zone hb ht fun _ htm => htm⟩
  rw [zoneInfos_put_other gs₁ gs₂ r (pre ++ post) (pre ++ c :: post) hz]
  exact hb.zones_apart hz

end Reserve

end ItxLlama.Seabios
