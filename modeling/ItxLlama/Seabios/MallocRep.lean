import ItxLlama.Seabios.MallocZones

/-!
# Memory that holds the zones

`Rep m gs`: the memory `m` holds the lists of the carved regions `gs`. While
the books balance no two records overlap, so an update of one zone's list
leaves the others', and what lies outside of the records, alone.
-/

namespace ItxLlama.Seabios

open Lib.Hlist Lib.Carve

def Rep (m : Mem) (gs : List Region) : Prop := ∀ z : Zone, ListAt m z.head (zoneInfos z gs)

/-- The addresses of all records, with their zones. -/
def records (gs : List Region) : List (Zone × Nat) :=
  gs.flatMap fun r => (addrs r.infos).map (Prod.mk r.zone)

theorem addrs_infosFrom (base start top : Nat) (cs : List Chunk) :
    addrs (infosFrom base start top cs) = cs.map Chunk.addr ++ [base] := by
  induction cs generalizing top with
  | nil => rfl
  | cons c cs ih => simp [infosFrom, ih]

theorem mem_records_zone {gs : List Region} : (z, a) ∈ records gs ↔ a ∈ addrs (zoneInfos z gs) := by
  induction gs with
  | nil => simp [records]
  | cons r gs ih =>
    have hcons : records (r :: gs) = (addrs r.infos).map (Prod.mk r.zone) ++ records gs := rfl
    rw [hcons, List.mem_append, ih]
    by_cases hz : r.zone = z
    · subst hz
      simp [zoneInfos_cons_same]
    · rw [zoneInfos_cons_other gs hz]
      simp [hz]

theorem blocks_records {l : List (Zone × Chunk)} (h : ∀ p ∈ l, p.2.Ok) :
    (l.map fun p => p.2.addr).Perm (l.filterMap asDetail ++ l.filterMap asOwner) := by
  induction l with
  | nil => exact .nil
  | cons p l ih =>
    rw [List.forall_mem_cons] at h
    obtain ⟨z, c⟩ := p
    have hok := h.1
    cases hk : c.kind with
    | detail =>
      simp only [Chunk.Ok, hk] at hok
      simpa [asDetail, asOwner, hk, hok.1] using ih h.2
    | user =>
      simp only [List.map_cons, List.filterMap_cons, asDetail, asOwner, hk]
      exact ((ih h.2).cons _).trans List.perm_middle.symm

theorem records_perm {gs : List Region} (h : ∀ r ∈ gs, r.Ok) :
    ((records gs).map Prod.snd).Perm (details gs ++ owners gs) := by
  have hb : ((records gs).map Prod.snd).Perm
      ((blocks gs).map (fun p => p.2.addr) ++ gs.map Region.addr) := by
    clear h
    induction gs with
    | nil => exact .nil
    | cons r gs ih =>
      have h1 : (records (r :: gs)).map Prod.snd =
          (r.chunks.map Chunk.addr ++ [r.addr]) ++ (records gs).map Prod.snd := by
        simp [records, Region.infos, addrs_infosFrom, Function.comp_def]
      have h2 : (blocks (r :: gs)).map (fun p => p.2.addr) =
          r.chunks.map Chunk.addr ++ (blocks gs).map (fun p => p.2.addr) := by
        simp [blocks, Function.comp_def]
      rw [h1, h2, List.append_assoc, List.append_assoc, List.map_cons]
      exact ((ih.cons r.addr).trans List.perm_middle.symm).append_left _
  have hok : ∀ p ∈ blocks gs, p.2.Ok := by
    intro p hp
    obtain ⟨r, hr, -, hc⟩ := mem_blocks.mp hp
    exact (h r hr).chunks _ hc
  refine hb.trans (((blocks_records hok).append_right _).trans ?_)
  rw [List.append_assoc]
  exact List.perm_append_comm.append_left _

section Books

variable {gs : List Region} {pend tmp : List Nat}

theorem Books.zone_records_apart (h : Books gs pend tmp) :
    (records gs).Pairwise fun p q => Apart infoSize p.2 q.2 := by
  have hp : ((records gs).map Prod.snd).Pairwise (Apart infoSize) := by
    rw [(records_perm h.ok).pairwise_iff fun h => h.symm]
    have := h.records_apart
    rw [← List.append_assoc] at this
    exact (List.pairwise_append.mp this).1
  exact List.pairwise_map.mp hp

theorem Books.mem_record (h : Books gs pend tmp) (ha : (z, a) ∈ records gs) :
    a ∈ tmp ∨ ∃ d ∈ details gs, a = d ∨ a = datainfo d := by
  have ha : a ∈ details gs ++ owners gs :=
    (records_perm h.ok).mem_iff.mp (List.mem_map.mpr ⟨(z, a), ha, rfl⟩)
  rcases List.mem_append.mp ha with ha | ha
  · exact .inr ⟨a, ha, .inl rfl⟩
  · have := h.balance.mem_iff.mp (List.mem_append_left pend ha)
    rcases List.mem_append.mp this with ha | ha
    · obtain ⟨d, hd, rfl⟩ := List.mem_map.mp ha
      exact .inr ⟨d, hd, .inr rfl⟩
    · exact .inl ha

theorem Books.record_bounds (h : Books gs pend tmp) (ha : (z, a) ∈ records gs) :
    0 < a ∧ a + infoSize ≤ headBase := by
  simp only [infoSize, headBase]
  rcases h.mem_record ha with ha | ⟨d, hd, rfl | rfl⟩
  · have : a = tempDatainfo := by rcases h.tmp with rfl | rfl <;> simp_all
    simp only [tempDatainfo] at this
    omega
  · have := h.detail_bounds hd
    simp only [detailSize] at this
    omega
  · have := h.detail_bounds hd
    simp only [detailSize, datainfo, infoSize] at this ⊢
    omega

theorem head_ge (z : Zone) : headBase ≤ z.head := by
  cases z <;> decide

theorem heads_apart {z z' : Zone} (h : z ≠ z') : Apart infoSize z.head z'.head := by
  cases z <;> cases z' <;> first
    | exact absurd rfl h
    | decide

theorem Books.separate (h : Books gs pend tmp) (z : Zone) :
    Separate z.head (addrs (zoneInfos z gs)) := by
  refine List.pairwise_cons.mpr ⟨fun a ha => ?_, ?_⟩
  · have := h.record_bounds (mem_records_zone.mpr ha)
    have := head_ge z
    exact .inr (by omega)
  · have hz : addrs (zoneInfos z gs) =
        (records gs).filterMap fun p => if p.1 = z then some p.2 else none := by
      clear h
      induction gs with
      | nil => rfl
      | cons r gs ih =>
        have hcons : records (r :: gs) = (addrs r.infos).map (Prod.mk r.zone) ++ records gs := rfl
        rw [hcons, List.filterMap_append, ← ih]
        by_cases hr : r.zone = z
        · subst hr
          simp [zoneInfos_cons_same, List.filterMap_map]
        · simp [zoneInfos_cons_other gs hr, List.filterMap_map, hr]
    rw [hz]
    refine h.zone_records_apart.filterMap _ fun p q hpq a ha b hb => ?_
    split at ha <;> split at hb <;> simp_all

theorem Books.zones_apart (h : Books gs pend tmp) (hz : z ≠ z') :
    ∀ a ∈ z.head :: addrs (zoneInfos z gs), ∀ b ∈ z'.head :: addrs (zoneInfos z' gs),
      Apart infoSize a b := by
  have hge := head_ge z
  have hge' := head_ge z'
  have : Std.Symm fun p q : Zone × Nat => Apart infoSize p.2 q.2 := ⟨fun _ _ h => h.symm⟩
  intro a ha b hb
  rcases List.mem_cons.mp ha with rfl | ha
  · rcases List.mem_cons.mp hb with rfl | hb
    · exact heads_apart hz
    · have := h.record_bounds (mem_records_zone.mpr hb)
      exact .inr (by omega)
  · have hra := mem_records_zone.mpr ha
    rcases List.mem_cons.mp hb with rfl | hb
    · have := h.record_bounds hra
      exact .inl (by omega)
    · exact h.zone_records_apart.forall hra (mem_records_zone.mpr hb) (by simp [hz])

theorem Books.length_lt (h : Books gs pend tmp) (z : Zone) :
    (zoneInfos z gs).length < walkFuel := by
  have hs := (List.pairwise_cons.mp (h.separate z)).2
  have hnd : ((addrs (zoneInfos z gs)).map (· / infoSize)).Nodup := by
    refine List.pairwise_map.mpr (hs.imp fun hab => ?_)
    simp only [Apart, infoSize] at hab ⊢
    omega
  have hsub : (addrs (zoneInfos z gs)).map (· / infoSize) ⊆ List.range (headBase / infoSize) := by
    intro k hk
    obtain ⟨a, ha, rfl⟩ := List.mem_map.mp hk
    have := h.record_bounds (mem_records_zone.mpr ha)
    rw [List.mem_range]
    simp only [infoSize] at this ⊢
    omega
  have hle := (List.subperm_of_subset hnd hsub).length_le
  simp only [addrs, List.length_map, List.length_range, headBase, infoSize] at hle
  simp only [walkFuel]
  omega

end Books

-- ---------------------------------------------------------------------------
-- Updates
-- ---------------------------------------------------------------------------

section Update

variable {m m' : Mem} {gs gs' : List Region} {pend tmp : List Nat}

theorem Rep.update (h : Rep m gs) (hl : ListAt m' z.head (zoneInfos z gs')) (ht : Touches T m m')
    (hother : ∀ z', z' ≠ z → zoneInfos z' gs' = zoneInfos z' gs)
    (hap : ∀ z', z' ≠ z → ∀ a ∈ z'.head :: addrs (zoneInfos z' gs'), ∀ t ∈ T,
      Apart infoSize a t) : Rep m' gs' := by
  intro z'
  by_cases hz : z' = z
  · subst hz
    exact hl
  · have hap := hap z' hz
    rw [hother z' hz] at hap ⊢
    exact (h z').frame ht hap

theorem Rep.frame (h : Rep m gs) (hhead : ∀ z : Zone, m' z.head = m z.head)
    (hrec : ∀ z a, (z, a) ∈ records gs → ∀ i < infoSize, m' (a + i) = m (a + i)) : Rep m' gs := by
  intro z
  have hrec : ∀ a ∈ addrs (zoneInfos z gs), ∀ i < infoSize, m' (a + i) = m (a + i) :=
    fun a ha => hrec z a (mem_records_zone.mpr ha)
  refine ⟨(h z).chain.frame (hhead z) fun a ha => ?_, fun n hn => ?_⟩
  · exact ⟨hrec a ha 0 (by decide), hrec a ha 4 (by decide)⟩
  · exact ((h z).infos n hn).frame fun i _ hi => hrec n.addr (mem_addrs.mpr ⟨n, hn, rfl⟩) i hi

theorem zoneInfos_swap (gs₁ gs₂ : List Region) {r r' : Region} (hr : r.zone ≠ z)
    (hr' : r'.zone ≠ z) : zoneInfos z (gs₁ ++ r :: gs₂) = zoneInfos z (gs₁ ++ r' :: gs₂) := by
  simp [zoneInfos_cons_other _ hr, zoneInfos_cons_other _ hr']

/-- Handles are no part of a list. -/
def KeepsHandles (gs : List Region) (m m' : Mem) : Prop :=
  ∀ d ∈ details gs, m' (d + 40) = m (d + 40)

theorem KeepsHandles.of_touches (h : Books gs pend tmp) {T : List Nat} (ht : Touches T m m')
    (hT : ∀ t ∈ T, (∃ z : Zone, t = z.head) ∨ t ∈ details gs ++ (owners gs ++ pend)) :
    KeepsHandles gs m m' := by
  intro d hd
  have hd' := h.detail_bounds hd
  apply ht
  intro t htT
  simp only [detailSize] at hd'
  simp only [infoSize]
  rcases hT t htT with ⟨z, rfl⟩ | htm
  · have := head_ge z
    simp only [headBase] at this
    omega
  · rcases List.mem_append.mp htm with htd | hto
    · have := apart_or_eq h.details_apart hd htd
      simp only [Apart, detailSize] at this
      omega
    · rcases List.mem_append.mp (h.balance.mem_iff.mp hto) with hto | hto
      · obtain ⟨d', hd'', rfl⟩ := List.mem_map.mp hto
        have := apart_or_eq h.details_apart hd hd''
        simp only [Apart, detailSize, datainfo, infoSize] at this ⊢
        omega
      · have : t = tempDatainfo := by rcases h.tmp with rfl | rfl <;> simp_all
        simp only [tempDatainfo] at this
        omega

end Update

end ItxLlama.Seabios
