import ItxLlama.Seabios.MallocOps

/-!
# Adding space to a zone

`addSpace` links the region in under a record on the stack, so that its own
detail record can already come out of it, and then replaces that record by
the one in the detail.
-/

namespace ItxLlama.Seabios

open Lib.Word Lib.Hlist Lib.Carve

section Place

variable {gs gs₁ gs₂ : List Region} {pend tmp : List Nat}

/-- Where `addSpace` links the region in: before the first region of the zone
that lies below it. -/
theorem addSpace_place (gs : List Region) (z : Zone) (s : Nat) :
    ∃ gs₁ gs₂, gs = gs₁ ++ gs₂ ∧ (∀ r ∈ gs₁, r.zone = z → s ≤ r.start) ∧
      ∀ r ∈ gs₂.head?, r.zone = z ∧ r.start < s := by
  induction gs with
  | nil => exact ⟨[], [], rfl, by simp, by simp⟩
  | cons r gs ih =>
    by_cases h : r.zone = z ∧ r.start < s
    · exact ⟨[], r :: gs, rfl, by simp, by simpa using h⟩
    · obtain ⟨gs₁, gs₂, rfl, h1, h2⟩ := ih
      refine ⟨r :: gs₁, gs₂, rfl, List.forall_mem_cons.mpr ⟨fun hz => ?_, h1⟩, h2⟩
      have : ¬ r.start < s := fun hlt => h ⟨hz, hlt⟩
      omega

theorem mem_infosFrom (hc : Carved Chunk.data Chunk.dataend start top cs)
    (hn : n ∈ infosFrom base start top cs) : start ≤ n.data ∧ n.data ≤ top := by
  induction cs generalizing top with
  | nil =>
    rw [List.mem_singleton.mp hn]
    exact ⟨Nat.le_refl _, hc⟩
  | cons c cs ih =>
    obtain ⟨h1, h2, h3⟩ := hc
    have := h3.le
    rcases List.mem_cons.mp hn with rfl | hn
    · exact ⟨this, by simp only; omega⟩
    · have := ih h3 hn
      omega

theorem mem_zoneInfos : n ∈ zoneInfos z gs ↔ ∃ r ∈ gs, r.zone = z ∧ n ∈ r.infos := by
  simp [zoneInfos, and_assoc]

theorem addSpace_walk (h : Rep m (gs₁ ++ gs₂)) (hb : Books (gs₁ ++ gs₂) pend tmp) (hse : s ≤ e)
    (hoff : ∀ r ∈ gs₁ ++ gs₂, r.fin ≤ s ∨ e ≤ r.start)
    (h1 : ∀ r ∈ gs₁, r.zone = z → s ≤ r.start)
    (h2 : ∀ r ∈ gs₂.head?, r.zone = z ∧ r.start < s) :
    hlistFind m (fun info => m (info + 8) < s) walkFuel z.head =
      some (lastLoc z.head (addrs (zoneInfos z gs₁))) := by
  have hl : ListAt m z.head (zoneInfos z gs₁ ++ zoneInfos z gs₂) := by simpa using h z
  have hlen := hb.length_lt z
  rw [zoneInfos_append, List.length_append] at hlen
  refine hl.find ?_ ?_ (Nat.lt_of_le_of_lt (Nat.le_add_right _ _) hlen)
  · intro n hn
    obtain ⟨r, hr, hz, hnr⟩ := mem_zoneInfos.mp hn
    have := (mem_infosFrom (hb.ok r (by simp [hr])).carved hnr).1
    have := h1 r hr hz
    rw [(hl.infos n (by simp [hn])).data]
    simp only [decide_eq_false_iff_not]
    omega
  · cases gs₂ with
    | nil => simp
    | cons r gs₂ =>
      obtain ⟨rfl, hlt⟩ := h2 r rfl
      have hoff := hoff r (by simp)
      have hok := hb.ok r (by simp)
      intro n hn
      rw [zoneInfos_cons_same, Region.infos, infosFrom_eq] at hn
      simp only [List.cons_append, List.head?_cons, Option.mem_some_iff] at hn
      have hat := hl.infos n (by
        rw [zoneInfos_cons_same, Region.infos, infosFrom_eq, hn]
        simp)
      have : n.data < s := by
        rw [← hn]
        cases hcs : r.chunks with
        | nil => exact hlt
        | cons c cs =>
          have := hok.carved.bounds (c := c) (by simp [hcs])
          simp only [headInfo]
          omega
      simpa [hat.data] using this

theorem zoneInfos_fresh (gs₁ gs₂ : List Region) (z : Zone) (s e a : Nat) :
    zoneInfos z (gs₁ ++ ⟨z, s, e, a, []⟩ :: gs₂) =
      zoneInfos z gs₁ ++ ⟨a, s, s, e⟩ :: zoneInfos z gs₂ := by
  simp [zoneInfos, Region.infos, infosFrom]

theorem pairwise_off_insert {r : Region} (ho : (gs₁ ++ gs₂).Pairwise Region.Off)
    (h : ∀ s ∈ gs₁ ++ gs₂, Region.Off r s) : (gs₁ ++ r :: gs₂).Pairwise Region.Off := by
  rw [List.perm_middle.pairwise_iff fun h => h.symm]
  exact List.pairwise_cons.mpr ⟨h, ho⟩

end Place

/-- A record elsewhere stays clear of a detail's handle. -/
theorem Books.apart_handle {pend tmp : List Nat} (hb : Books gs pend tmp) (hd : d ∈ details gs)
    (ha : a ∈ z.head :: addrs (zoneInfos z gs)) (hne : a ≠ datainfo d) :
    Apart infoSize a (d + 24) := by
  have hbound := hb.detail_bounds hd
  simp only [detailSize] at hbound
  simp only [Apart, infoSize]
  rcases List.mem_cons.mp ha with rfl | ha
  · have := head_ge z
    simp only [headBase] at this
    omega
  · rcases hb.mem_record (mem_records_zone.mpr ha) with hat | ⟨d', hd', rfl | rfl⟩
    · have : a = tempDatainfo := by rcases hb.tmp with rfl | rfl <;> simp_all
      simp only [tempDatainfo] at this
      omega
    · have := apart_or_eq hb.details_apart hd hd'
      simp only [Apart, detailSize] at this
      omega
    · have := apart_or_eq hb.details_apart hd hd'
      simp only [Apart, detailSize, datainfo, infoSize] at this hne ⊢
      omega

theorem touches_copyInfo {T : List Nat} (m : Mem) (src : Nat) (ht : t ∈ T) :
    Touches T m (copyInfo m t src) := fun k hk => by
  have := hk t ht
  simp only [infoSize] at this
  simp only [copyInfo]
  rw [store_ne _ _ (by omega), store_ne _ _ (by omega), store_ne _ _ (by omega),
    store_ne _ _ (by omega), store_ne _ _ (by omega)]

theorem copyInfo_at {n : AllocInfo} (h : n.At m) (hap : Apart infoSize n.addr dst) :
    AllocInfo.At { n with addr := dst } (copyInfo m dst n.addr) := by
  obtain ⟨addr, data, dataend, allocend⟩ := n
  obtain ⟨h1, h2, h3⟩ := h
  simp only [Apart, infoSize] at h1 h2 h3 hap
  refine ⟨?_, ?_, ?_⟩
  · simp only [copyInfo]
    rw [store_ne _ _ (by omega), store_ne _ _ (by omega), store_same, store_ne _ _ (by omega),
      store_ne _ _ (by omega), h1]
  · simp only [copyInfo]
    rw [store_ne _ _ (by omega), store_same, store_ne _ _ (by omega), store_ne _ _ (by omega),
      store_ne _ _ (by omega), h2]
  · simp only [copyInfo]
    rw [store_same, store_ne _ _ (by omega), store_ne _ _ (by omega), store_ne _ _ (by omega),
      store_ne _ _ (by omega), h3]

-- ---------------------------------------------------------------------------
-- addSpace
-- ---------------------------------------------------------------------------

section Add

variable {m : Mem} {gs gs₁ gs₂ : List Region} {z : Zone} {s e : Nat}

/-- The region under the record on the stack. -/
def tempRegion (z : Zone) (s e : Nat) : Region := ⟨z, s, e, tempDatainfo, []⟩

theorem blocks_fresh (gs₁ gs₂ : List Region) (z : Zone) (s e a : Nat) :
    blocks (gs₁ ++ ⟨z, s, e, a, []⟩ :: gs₂) = blocks (gs₁ ++ gs₂) := by
  simp [blocks]

theorem owners_region (gs₁ gs₂ : List Region) (t : Region) :
    (owners (gs₁ ++ t :: gs₂)).Perm
      (t.addr :: ((gs₁ ++ gs₂).map Region.addr ++ (blocks (gs₁ ++ t :: gs₂)).filterMap asOwner)) := by
  rw [owners, List.map_append, List.map_append, List.map_cons]
  exact List.perm_middle.append_right _

theorem books_temp (hb : Books (gs₁ ++ gs₂) [] []) (hs : 0 < s) (hse : s ≤ e) (he : e < 2 ^ 32)
    (hoff : ∀ r ∈ gs₁ ++ gs₂, r.fin ≤ s ∨ e ≤ r.start) :
    Books (gs₁ ++ tempRegion z s e :: gs₂) [] [tempDatainfo] := by
  refine ⟨fun r hr => ?_, pairwise_off_insert hb.off fun r hr => (hoff r hr).symm, ?_, .inr rfl⟩
  · have hr : r ∈ gs₁ ++ gs₂ ∨ r = tempRegion z s e := by
      simp only [List.mem_append, List.mem_cons] at hr ⊢
      tauto
    rcases hr with hr | rfl
    · exact hb.ok r hr
    · exact ⟨hs, he, hse, by simp [tempRegion]⟩
  · have hbal := hb.balance
    rw [List.append_nil, List.append_nil] at hbal
    rw [List.append_nil, details, tempRegion, blocks_fresh]
    refine (owners_region gs₁ gs₂ _).trans ?_
    rw [blocks_fresh]
    refine (hbal.cons tempDatainfo).trans ?_
    exact (List.perm_append_singleton _ _).symm

/-- The books once the data record in the detail stands for the one on the stack. -/
theorem books_final {t : Region} (hb : Books (gs₁ ++ t :: gs₂) [a] [tempDatainfo])
    (ht : t.addr = tempDatainfo) : Books (gs₁ ++ { t with addr := a } :: gs₂) [] [] := by
  have hblocks : blocks (gs₁ ++ { t with addr := a } :: gs₂) = blocks (gs₁ ++ t :: gs₂) := by
    simp [blocks]
  refine ⟨fun r hr => ?_, ?_, ?_, .inl rfl⟩
  · have hr : r ∈ gs₁ ++ t :: gs₂ ∨ r = { t with addr := a } := by
      simp only [List.mem_append, List.mem_cons] at hr ⊢
      tauto
    rcases hr with hr | rfl
    · exact hb.ok r hr
    · have := hb.ok t (by simp)
      exact ⟨this.pos, this.word, this.carved, this.chunks⟩
  · have := (List.perm_middle.pairwise_iff (R := Region.Off) fun h => h.symm).mp hb.off
    obtain ⟨h1, h2⟩ := List.pairwise_cons.mp this
    exact pairwise_off_insert h2 h1
  · have hbal := hb.balance
    rw [List.append_nil, List.append_nil]
    have h1 := owners_region gs₁ gs₂ { t with addr := a }
    have h2 := owners_region gs₁ gs₂ t
    rw [hblocks] at h1
    rw [ht] at h2
    have h3 := (h2.symm.append_right [a]).trans (hbal.trans List.perm_append_comm)
    refine h1.trans (((List.perm_append_singleton _ _).symm.trans h3.cons_inv).trans ?_)
    rw [details, details, hblocks]
    exact .refl _

theorem rep_temp (h : Rep m (gs₁ ++ gs₂)) (hb : Books (gs₁ ++ gs₂) [] [])
    (hbT : Books (gs₁ ++ tempRegion z s e :: gs₂) [] [tempDatainfo]) :
    let m₁ := store (store (store m (tempDatainfo + 12) s) (tempDatainfo + 8) s)
      (tempDatainfo + 16) e
    let m₂ := hlistAdd m₁ tempDatainfo (lastLoc z.head (addrs (zoneInfos z gs₁)))
    Rep m₂ (gs₁ ++ tempRegion z s e :: gs₂) ∧ KeepsHandles (gs₁ ++ gs₂) m m₂ := by
  intro m₁ m₂
  have t1 : Touches [tempDatainfo] m m₁ :=
    ((touches_store _ _ (by simp) (by decide)).trans
      (touches_store _ _ (by simp) (by decide))).trans (touches_store _ _ (by simp) (by decide))
  have hat : AllocInfo.At ⟨tempDatainfo, s, s, e⟩ m₁ := by
    refine ⟨?_, ?_, ?_⟩
    · show store _ _ _ _ = _
      rw [store_ne _ _ (by simp), store_same]
    · show store _ _ _ _ = _
      rw [store_ne _ _ (by simp), store_ne _ _ (by simp), store_same]
    · exact store_same ..
  have hrec : ∀ z' a, (z', a) ∈ records (gs₁ ++ gs₂) → Apart infoSize a tempDatainfo := by
    intro z' a ha
    left
    rcases hb.mem_record ha with h | ⟨d, hd, rfl | rfl⟩
    · simp at h
    · have := hb.detail_bounds hd
      simp only [detailSize, infoSize, tempDatainfo] at *
      omega
    · have := hb.detail_bounds hd
      simp only [detailSize, infoSize, datainfo, tempDatainfo] at *
      omega
  have hrep₁ : Rep m₁ (gs₁ ++ gs₂) := by
    refine h.frame (fun z' => ?_) fun z' a ha i hi => ?_
    · have := head_ge z'
      exact t1 _ fun t ht => by
        rw [List.mem_singleton.mp ht]
        simp only [headBase, tempDatainfo, infoSize] at *
        omega
    · exact t1.word (fun t ht => by rw [List.mem_singleton.mp ht]; exact hrec z' a ha) hi
  have hl := hrep₁ z
  rw [zoneInfos_append] at hl
  have hzi : zoneInfos z (gs₁ ++ tempRegion z s e :: gs₂) =
      zoneInfos z gs₁ ++ ⟨tempDatainfo, s, s, e⟩ :: zoneInfos z gs₂ := zoneInfos_fresh ..
  have hsep := hbT.separate z
  rw [hzi] at hsep
  have ht := hl.touches_add tempDatainfo
  have hsub : ∀ t ∈ z.head :: tempDatainfo :: addrs (zoneInfos z gs₁ ++ zoneInfos z gs₂),
      t ∈ z.head :: addrs (zoneInfos z (gs₁ ++ tempRegion z s e :: gs₂)) := by
    rw [hzi]
    simp only [addrs_append, addrs_cons, List.mem_cons, List.mem_append]
    tauto
  refine ⟨hrep₁.update (z := z) ?_ (ht.mono hsub) (fun z' hz' => ?_) fun z' hz' =>
    hbT.zones_apart hz', ?_⟩
  · rw [hzi]
    exact hl.add hat (by simp [tempDatainfo]) hsep
  · simp only [zoneInfos_append]
    rw [zoneInfos_cons_other _ (by exact Ne.symm hz')]
  · have hd : details (gs₁ ++ tempRegion z s e :: gs₂) = details (gs₁ ++ gs₂) := by
      rw [details, details, tempRegion, blocks_fresh]
    have hk : ∀ {T m m'}, Touches T m m' →
        (∀ t ∈ T, t ∈ z.head :: addrs (zoneInfos z (gs₁ ++ tempRegion z s e :: gs₂))) →
        KeepsHandles (gs₁ ++ gs₂) m m' := by
      intro T m m' ht hT d hdm
      exact KeepsHandles.of_zone hbT ht hT d (hd ▸ hdm)
    exact (hk t1 (by simp [hzi])).trans (hk ht hsub)

theorem rep_untemp (h : Rep m (gs₁ ++ tempRegion z s e :: gs₂))
    (hbT : Books (gs₁ ++ tempRegion z s e :: gs₂) [] [tempDatainfo]) :
    Rep (hlistDel m tempDatainfo) (gs₁ ++ gs₂) ∧
      KeepsHandles (gs₁ ++ gs₂) m (hlistDel m tempDatainfo) := by
  have hzi : zoneInfos z (gs₁ ++ tempRegion z s e :: gs₂) =
      zoneInfos z gs₁ ++ ⟨tempDatainfo, s, s, e⟩ :: zoneInfos z gs₂ := zoneInfos_fresh ..
  have hl := h z
  have hsep := hbT.separate z
  rw [hzi] at hl hsep
  have hother : ∀ z', z' ≠ z → zoneInfos z' (gs₁ ++ gs₂) =
      zoneInfos z' (gs₁ ++ tempRegion z s e :: gs₂) := fun z' hz' => by
    simp only [zoneInfos_append]
    rw [zoneInfos_cons_other _ (by exact Ne.symm hz')]
  have ht := hl.touches_del
  rw [← hzi] at ht
  refine ⟨h.update (z := z) ?_ ht hother fun z' hz' => ?_, fun d hd => ?_⟩
  · simpa using hl.del hsep
  · rw [hother z' hz']
    exact hbT.zones_apart hz'
  · refine KeepsHandles.of_zone hbT ht (fun _ htm => htm) d ?_
    rwa [details, tempRegion, blocks_fresh]

/-- What is stored where a record of a list is replaced by a copy of it in the detail at `d`. -/
structure Replaced (m m₁ m₂ : Mem) (loc : Nat) (as : List Nat) (addr d : Nat) : Prop where
  unlink : Touches (loc :: addr :: as) m (hlistDel m addr)
  copy : Touches [datainfo d, d + 24] (hlistDel m addr) m₁
  link : Touches (loc :: datainfo d :: as) m₁ m₂

theorem ListAt.replace {n : AllocInfo} (hl : ListAt m loc (A ++ n :: B))
    (hsepT : Separate loc (addrs (A ++ n :: B)))
    (hsep : Separate loc (addrs (A ++ { n with addr := datainfo d } :: B)))
    (hapt : Apart infoSize n.addr (datainfo d))
    (hhandle : ∀ a ∈ loc :: addrs (A ++ { n with addr := datainfo d } :: B), a ≠ datainfo d →
      Apart infoSize a (d + 24)) :
    let m₁ := store (copyInfo (hlistDel m n.addr) (datainfo d) n.addr) (d + 40) mallocDefaultHandle
    let m₂ := hlistAdd m₁ (datainfo d) (m (n.addr + 4))
    ListAt m₂ loc (A ++ { n with addr := datainfo d } :: B) ∧
      Replaced m m₁ m₂ loc (addrs (A ++ B)) n.addr d := by
  intro m₁ m₂
  have hc := hl.chain
  rw [addrs_append, addrs_cons] at hc
  have hpprev : m (n.addr + 4) = lastLoc loc (addrs A) := hc.pprev
  have hsepT' : (loc :: (addrs A ++ n.addr :: addrs B)).Pairwise (Apart infoSize) := by
    rw [Separate, addrs_append, addrs_cons] at hsepT
    exact hsepT
  -- unlink
  have hl₁ := hl.del hsepT
  have hat₁ : n.At (hlistDel m n.addr) :=
    (hl.infos _ (by simp)).frame fun i h8 hi => hc.del_payload hsepT' (by simp) h8 hi
  have tdel : Touches (loc :: n.addr :: addrs (A ++ B)) m (hlistDel m n.addr) :=
    hl.touches_del.mono fun x hx => by
      simp only [addrs_append, addrs_cons, List.mem_cons, List.mem_append] at hx ⊢
      tauto
  -- copy
  have hat₂ := copyInfo_at hat₁ hapt
  have t₁ : Touches [datainfo d, d + 24] (hlistDel m n.addr) m₁ :=
    (touches_copyInfo _ _ (by simp)).trans
      (touches_store (t := d + 24) (i := 16) _ _ (by simp) (by decide))
  have hperm : (loc :: addrs (A ++ { n with addr := datainfo d } :: B)).Perm
      (datainfo d :: loc :: addrs (A ++ B)) := by
    simp only [addrs_append, addrs_cons]
    exact (List.perm_middle.cons _).trans (List.Perm.swap ..)
  obtain ⟨hf, -⟩ := List.pairwise_cons.mp ((hperm.pairwise_iff fun h => h.symm).mp hsep)
  have hap₁ : ∀ a ∈ loc :: addrs (A ++ B), ∀ x ∈ [datainfo d, d + 24], Apart infoSize a x := by
    intro a ha x hx
    simp only [List.mem_cons, List.not_mem_nil, or_false] at hx
    rcases hx with rfl | rfl
    · exact (hf a ha).symm
    · exact hhandle a (hperm.mem_iff.mpr (List.mem_cons_of_mem _ ha)) ((hf a ha).ne (by decide)).symm
  have hl₂ := hl₁.frame t₁ hap₁
  have hat₃ : AllocInfo.At { n with addr := datainfo d } m₁ :=
    hat₂.frame fun i _ hi => store_ne _ _ (by
      simp only [datainfo, infoSize] at hi ⊢
      omega)
  -- link in
  have hpos : datainfo d ≠ 0 := Nat.ne_of_gt (by
    simp only [datainfo, infoSize]
    omega)
  have hl₃ := hl₂.add hat₃ hpos hsep
  have t₂ := hl₂.touches_add (datainfo d)
  rw [← hpprev] at hl₃ t₂
  exact ⟨hl₃, tdel, t₁, t₂⟩

/-- The list of the region's zone, with the record at `a` as the base of the region. -/
theorem zoneInfos_rebased (gs₁ gs₂ : List Region) (t : Region) (a : Nat) :
    zoneInfos t.zone (gs₁ ++ { t with addr := a } :: gs₂) =
      (zoneInfos t.zone gs₁ ++ preInfos t.fin t.chunks) ++
        ⟨a, t.start, t.start, topAfter Chunk.data t.fin t.chunks⟩ :: zoneInfos t.zone gs₂ :=
  zoneInfos_region (z := t.zone) (r := { t with addr := a }) rfl (List.append_nil _).symm gs₁ gs₂

theorem zoneInfos_rebased_other (gs₁ gs₂ : List Region) {t : Region} (hz : z ≠ t.zone) (a : Nat) :
    zoneInfos z (gs₁ ++ { t with addr := a } :: gs₂) = zoneInfos z (gs₁ ++ t :: gs₂) := by
  simp only [zoneInfos_append]
  rw [zoneInfos_cons_other _ (by exact Ne.symm hz), zoneInfos_cons_other _ (by exact Ne.symm hz)]

theorem details_rebased (gs₁ gs₂ : List Region) (t : Region) (a : Nat) :
    details (gs₁ ++ { t with addr := a } :: gs₂) = details (gs₁ ++ t :: gs₂) := by
  simp [details, blocks]

theorem rep_replace {t : Region} (h : Rep m (gs₁ ++ t :: gs₂))
    (hbT : Books (gs₁ ++ t :: gs₂) [datainfo d] [tempDatainfo]) (ht : t.addr = tempDatainfo)
    (hd : d ∈ details (gs₁ ++ t :: gs₂)) :
    let m₁ := store (copyInfo (hlistDel m tempDatainfo) (datainfo d) tempDatainfo) (d + 40)
      mallocDefaultHandle
    let m₂ := hlistAdd m₁ (datainfo d) (m (tempDatainfo + 4))
    Rep m₂ (gs₁ ++ { t with addr := datainfo d } :: gs₂) ∧ m₂ (d + 40) = mallocDefaultHandle ∧
      ∀ d' ∈ details (gs₁ ++ t :: gs₂), d' ≠ d → m₂ (d' + 40) = m (d' + 40) := by
  intro m₁ m₂
  have hb := books_final hbT ht
  have hdet := details_rebased gs₁ gs₂ t (datainfo d)
  -- the zone's list, with either record as the base
  have hzi := zoneInfos_rebased gs₁ gs₂ t
  have hziT := hzi tempDatainfo
  rw [← ht] at hziT
  have hl := h t.zone
  have hsepT := hbT.separate t.zone
  have hsep := hb.separate t.zone
  rw [hzi] at hsep
  rw [hziT] at hl hsepT
  generalize zoneInfos t.zone gs₁ ++ preInfos t.fin t.chunks = A at *
  generalize zoneInfos t.zone gs₂ = B at *
  generalize topAfter Chunk.data t.fin t.chunks = top at *
  have hdb := hbT.detail_bounds hd
  have hapt : Apart infoSize t.addr (datainfo d) := by
    simp only [detailSize] at hdb
    exact .inr (by simp only [ht, datainfo, infoSize, tempDatainfo]; omega)
  have hsub : ∀ x ∈ t.zone.head :: datainfo d :: addrs (A ++ B),
      x ∈ t.zone.head :: addrs (zoneInfos t.zone (gs₁ ++ { t with addr := datainfo d } :: gs₂)) := by
    rw [hzi]
    simp only [addrs_append, addrs_cons, List.mem_cons, List.mem_append]
    tauto
  have hsubT : ∀ x ∈ t.zone.head :: t.addr :: addrs (A ++ B),
      x ∈ t.zone.head :: addrs (zoneInfos t.zone (gs₁ ++ t :: gs₂)) := by
    rw [hziT]
    simp only [addrs_append, addrs_cons, List.mem_cons, List.mem_append]
    tauto
  obtain ⟨hl₂, hrep⟩ := hl.replace hsepT hsep hapt fun a ha hne =>
    hb.apart_handle (z := t.zone) (hdet ▸ hd) (by rw [hzi]; exact ha) hne
  simp only [ht] at hl₂ hrep hsubT
  have tdel := hrep.unlink.mono hsubT
  have t₁ : Touches [datainfo d, d + 24] (hlistDel m tempDatainfo) m₁ := hrep.copy
  have t₂ : Touches _ m₁ m₂ := hrep.link.mono hsub
  have hkeep : ∀ d' ∈ details (gs₁ ++ t :: gs₂), m₂ (d' + 40) = m₁ (d' + 40) := fun d' hd' =>
    KeepsHandles.of_zone hb t₂ (fun _ hx => hx) d' (hdet ▸ hd')
  refine ⟨fun z => ?_, (hkeep d hd).trans (store_same ..), fun d' hd' hne => ?_⟩
  · by_cases hz : z = t.zone
    · subst hz
      rw [hzi]
      exact hl₂
    · have hz' := zoneInfos_rebased_other gs₁ gs₂ hz (datainfo d)
      have hF := hb.zones_apart hz
      rw [hz'] at hF ⊢
      have f₁ := (h z).frame tdel (hbT.zones_apart hz)
      have f₂ := f₁.frame t₁ fun a ha x hx => by
        have hne : Apart infoSize a (datainfo d) := hF a ha _ (hsub _ (by simp))
        simp only [List.mem_cons, List.not_mem_nil, or_false] at hx
        rcases hx with rfl | rfl
        · exact hne
        · exact hb.apart_handle (hdet ▸ hd) (by rwa [hz']) (hne.ne (by decide))
      exact f₂.frame t₂ hF
  · have h₁ : m₁ (d' + 40) = hlistDel m tempDatainfo (d' + 40) := by
      have := apart_or_eq hbT.details_apart hd hd'
      simp only [Apart, detailSize] at this
      refine t₁ _ fun x hx => ?_
      simp only [List.mem_cons, List.not_mem_nil, or_false, datainfo, infoSize] at hx ⊢
      omega
    have h₀ := KeepsHandles.of_zone hbT tdel (fun _ hx => hx) d' hd'
    exact (hkeep d' hd').trans (h₁.trans h₀)

/-- Zone and bounds of a region. -/
def Region.span (r : Region) : Zone × Nat × Nat := (r.zone, r.start, r.fin)

@[simp] theorem map_bare_span (l : List Region) :
    (l.map Region.bare).map Region.span = l.map Region.span := by
  simp [Function.comp_def, Region.bare, Region.span]

theorem span_of_bare {gs gs' : List Region} (h : gs'.map Region.bare = gs.map Region.bare) :
    gs'.map Region.span = gs.map Region.span := by
  rw [← map_bare_span, h, map_bare_span]

theorem addSpace_spec (h : Rep m gs) (hb : Books gs [] []) (hs : 0 < s) (hse : s ≤ e)
    (he : e < 2 ^ 32) (hoff : ∀ r ∈ gs, r.fin ≤ s ∨ e ≤ r.start) :
    ∃ added m' gs', addSpace m z s e = some (added, m') ∧ Rep m' gs' ∧ Books gs' [] [] ∧
      KeepsHandles gs m m' ∧
      ((added = false ∧ gs' = gs) ∨
        added = true ∧ (∃ a, (gs'.map Region.bare).Perm (⟨z, s, e, a, []⟩ :: gs.map Region.bare)) ∧
          ∃ z' d, (blocks gs').Perm ((z', detailChunk d) :: blocks gs) ∧
            m' (d + 40) = mallocDefaultHandle) := by
  obtain ⟨gs₁, gs₂, rfl, h1, h2⟩ := addSpace_place gs z s
  have hwalk := addSpace_walk h hb hse hoff h1 h2
  have hbT := books_temp (z := z) hb hs hse he hoff
  obtain ⟨hrT, hkT⟩ := rep_temp h hb hbT
  have hdetT : details (gs₁ ++ tempRegion z s e :: gs₂) = details (gs₁ ++ gs₂) := by
    rw [details, details, tempRegion, blocks_fresh]
  rcases reserveDetail_spec hrT hbT with hno | ⟨d, gs', m', hyes, hres⟩
  · obtain ⟨hr, hk⟩ := rep_untemp hrT hbT
    refine ⟨false, _, gs₁ ++ gs₂, ?_, hr, hb, hkT.trans hk, .inl ⟨rfl, rfl⟩⟩
    simp only [addSpace, hwalk, Option.bind_eq_bind, Option.bind_some, hno]
    rfl
  · have hd0 := Nat.ne_of_gt hres.pos
    have hdm := hres.mem_details
    obtain ⟨zd, hcut⟩ := hres.cut
    obtain ⟨-, hrep, hbooks, hbare, -, hkeep⟩ := hres
    rw [List.map_append, List.map_cons] at hbare
    obtain ⟨g₁, g', rfl, hg₁, hg'⟩ := List.map_eq_append_iff.mp hbare
    obtain ⟨t, g₂, rfl, ht, hg₂⟩ := List.map_eq_cons_iff.mp hg'
    have hta : t.addr = tempDatainfo := by
      have := congrArg Region.addr ht
      exact this
    obtain ⟨hr, hh, hk⟩ := rep_replace hrep hbooks hta hdm
    have hblocks : blocks (g₁ ++ { t with addr := datainfo d } :: g₂) = blocks (g₁ ++ t :: g₂) := by
      simp [blocks]
    have hsub : ∀ d' ∈ details (gs₁ ++ gs₂), d' ∈ details (g₁ ++ t :: g₂) := by
      rw [← hdetT]
      exact details_sub (l := [_]) hcut
    have hcut' : (blocks (g₁ ++ t :: g₂)).Perm ((zd, detailChunk d) :: blocks (gs₁ ++ gs₂)) := by
      have : blocks (gs₁ ++ tempRegion z s e :: gs₂) = blocks (gs₁ ++ gs₂) := blocks_fresh ..
      rw [this] at hcut
      exact hcut
    refine ⟨true, _, _, ?_, hr, books_final hbooks hta, ?_, .inr ⟨rfl, ?_, zd, d, ?_, hh⟩⟩
    · simp only [addSpace, hwalk, Option.bind_eq_bind, Option.bind_some, hyes, if_neg hd0]
      rfl
    · have hne : ∀ d' ∈ details (gs₁ ++ gs₂), d' ≠ d := by
        intro d' hd' heq
        have hp := ((hcut'.filterMap asDetail).pairwise_iff fun h => h.symm).mp hbooks.details_apart
        exact absurd heq (((List.pairwise_cons.mp hp).1 d' hd').ne (by decide)).symm
      exact (hkT.trans (hkeep.mono hsub)).trans fun d' hd' => hk d' (hsub d' hd') (hne d' hd')
    · have hbase : Region.bare { t with addr := datainfo d } = ⟨z, s, e, datainfo d, []⟩ :=
        congrArg (fun r : Region => { r with addr := datainfo d }) ht
      refine ⟨datainfo d, ?_⟩
      rw [List.map_append, List.map_cons, hg₁, hg₂, hbase, List.map_append]
      exact List.perm_middle
    · rw [hblocks]
      exact hcut'

end Add

end ItxLlama.Seabios
