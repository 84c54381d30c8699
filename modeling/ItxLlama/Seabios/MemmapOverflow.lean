import ItxLlama.Seabios.MemmapLaws

/-!
# The e820 map with a full table

`insert_e820` can refuse an entry in the middle of a split, which loses the
tail of the entry that is split, or at the end of a call, which loses the
new entry. Either way the call acts like one on a table that already said
less, so the map only ever loses information.
-/

namespace ItxLlama.Seabios

open Lib.Word Lib.Ranges

-- ---------------------------------------------------------------------------
-- The number of entries
-- ---------------------------------------------------------------------------

theorem insertE820_length (h : m.list.length ≤ buildMaxE820) :
    (insertE820 i e m).list.length ≤ buildMaxE820 := by
  unfold insertE820
  split
  · exact h
  · simp only [List.length_append, List.length_cons, List.length_take, List.length_drop]
    omega

theorem removeOverlap_length (end_ type : Nat) (es : List E820Entry) (size : Nat) :
    (removeOverlap end_ type es size).1.length ≤ es.length := by
  induction es with
  | nil => simp [removeOverlap]
  | cons e es ih =>
    simp only [removeOverlap]
    split
    · exact Nat.le_refl _
    · split
      · exact Nat.le_succ_of_le ih
      · split
        · exact Nat.le_succ _
        · exact Nat.le_refl _

theorem splitE820_length (start end_ size type : Nat) {m : E820Map}
    (h : m.list.length ≤ buildMaxE820) :
    (splitE820 start end_ size type m).2.2.2.list.length ≤ buildMaxE820 := by
  unfold splitE820
  split
  · exact h
  · split
    · split
      · exact h
      · dsimp only
        split
        · exact insertE820_length (by simpa using h)
        · simpa using h
    · exact h

theorem addE820_length (start size type : Nat) {m : E820Map} (h : m.list.length ≤ buildMaxE820) :
    (addE820 start size type m).list.length ≤ buildMaxE820 := by
  unfold addE820
  split
  · exact h
  · have hs := splitE820_length start (u64 (start + size)) size type h
    dsimp only
    generalize splitE820 start (u64 (start + size)) size type m = s at hs ⊢
    obtain ⟨i, start', size', m'⟩ := s
    have hr := removeOverlap_length (u64 (start + size)) type (m'.list.drop i) size'
    have hlen : (m'.list.take i ++ (removeOverlap (u64 (start + size)) type (m'.list.drop i)
        size').1).length ≤ buildMaxE820 := by
      simp only [List.length_append, List.length_take, List.length_drop] at hr hs ⊢
      omega
    split
    · exact insertE820_length hlen
    · exact hlen

-- ---------------------------------------------------------------------------
-- A refused entry
-- ---------------------------------------------------------------------------

theorem insertE820_cases (i : Nat) (e : E820Entry) (m : E820Map) :
    (insertE820 i e m).warnNoalloc = m.warnNoalloc ∨ (insertE820 i e m).list = m.list := by
  unfold insertE820
  split
  · exact .inr rfl
  · exact .inl rfl

/-- The table whose split entry has already lost its tail. -/
theorem trimmed_tail {pre es : List E820Entry} {e : E820Entry} (h : E820Inv (pre ++ e :: es))
    (hlt : e.start < end_) (hend : end_ < e.start + e.size) :
    E820Inv (pre ++ { e with size := end_ - e.start } :: es) ∧
      ∀ a t, Has (ranges (pre ++ { e with size := end_ - e.start } :: es)) a t →
        Has (ranges (pre ++ e :: es)) a t := by
  obtain ⟨hpre, hrest, -⟩ := h.append
  have hcan := h.canonical
  rw [ranges, List.map_append, canonical_append] at hcan
  obtain ⟨-, hafter, hcanes⟩ := canonical_cons.mp hrest.canonical
  obtain ⟨⟨hfit, hnh⟩, hokes⟩ := entriesOk_cons.mp hrest.ok
  refine ⟨⟨?_, entriesOk_append.mpr ⟨hpre.ok, entriesOk_cons.mpr
    ⟨⟨by simp only; omega, hnh⟩, hokes⟩⟩⟩, fun a t => ?_⟩
  · rw [ranges, List.map_append, canonical_append]
    refine ⟨hcan.1, canonical_cons.mpr ⟨by simp only [E820Entry.range]; omega, ?_, hcanes⟩, ?_⟩
    · intro r hr
      have := (hafter r hr).1
      simp only [E820Entry.range] at this
      exact .of_lt (by simp only [E820Entry.range]; omega)
    · intro r hr s hs
      rcases List.mem_cons.mp hs with rfl | hs
      · exact hcan.2.2 r hr e.range (by simp)
      · exact hcan.2.2 r hr s (List.mem_cons_of_mem _ hs)
  · simp only [ranges, List.map_append, List.map_cons, has_append, has_cons, E820Entry.range,
      Range.Covers]
    rintro (ha | ⟨hc, rfl⟩ | ha)
    · exact .inl ha
    · exact .inr (.inl ⟨by omega, rfl⟩)
    · exact .inr (.inr ha)

theorem splitE820_weak (type : Nat) {m : E820Map} (h : E820Inv m.list) (hpos : 0 < size)
    (hfit : start + size < 2 ^ 64) :
    ∃ l pre rest start' m', E820Inv l ∧ (∀ a t, Has (ranges l) a t → Has (ranges m.list) a t) ∧
      splitE820 start (start + size) size type m =
        (pre.length, start', size + (start - start'), m') ∧
      m'.list = pre ++ rest ∧ Cut l start (start + size) type pre rest start' := by
  by_cases hw : (splitE820 start (start + size) size type m).2.2.2.warnNoalloc = m.warnNoalloc
  · obtain ⟨pre, rest, start', m', h1, h2, -, h3⟩ := splitE820_spec h hpos hfit hw
    exact ⟨m.list, pre, rest, start', m', h, fun _ _ => id, h1, h2, h3⟩
  -- the tail of the split entry was refused
  obtain ⟨pre, rest, hl, hf, -, hr⟩ := findE820_spec start m.list 0
  rw [Nat.zero_add] at hf
  cases rest with
  | nil => simp [splitE820, hf] at hw
  | cons e es =>
    have hee : e.eEnd = e.start + e.size := u64_eq (h.ok.fits e (by simp [hl]))
    have hle : start ≤ e.start + e.size := hee ▸ hr e rfl
    simp only [splitE820, hf, List.head?_cons] at hw ⊢
    by_cases hlt : start > e.start
    · rw [if_pos hlt] at hw ⊢
      by_cases hty : type = e.type
      · simp [hty] at hw
      · rw [if_neg hty] at hw ⊢
        by_cases hout : e.eEnd > start + size
        · rw [if_pos hout] at hw ⊢
          rw [hee] at hout
          have hrefused := (insertE820_cases _ _ _).resolve_left hw
          rw [hl] at h
          obtain ⟨hinv, hhas⟩ := trimmed_tail h (show e.start < start + size by omega) hout
          have hcut := cut_trim hinv hlt (show start ≤ e.start + (start + size - e.start) by omega)
            (show start < start + size by omega) hty
          rw [if_neg (by simp only; omega)] at hcut
          generalize insertE820 _ _ _ = m' at hrefused ⊢
          refine ⟨_, _, es, start, m', hinv, hl ▸ hhas, ?_, ?_, hcut⟩
          · simp
          · rw [hrefused]
            simp [hl]
        · simp [hout] at hw
    · simp [hlt] at hw

/-- Any call keeps the invariant, and the map then says nothing new but
the call's type on the call's range. -/
theorem addE820_weak (type : Nat) {m : E820Map} (h : E820Inv m.list) (hpos : 0 < size)
    (hfit : start + size < 2 ^ 64) :
    E820Inv (addE820 start size type m).list ∧
      Weakens (ranges m.list) (ranges (addE820 start size type m).list)
        (addWrite start size type) := by
  have hend : u64 (start + size) = start + size := u64_eq hfit
  unfold addE820
  rw [if_neg (by omega), hend]
  obtain ⟨l, pre, rest, start', m', hinv, hsub, hsplit, hm', hc⟩ :=
    splitE820_weak type h hpos hfit
  have h4 := hc.le
  obtain ⟨rest', end', hrun, ht⟩ := removeOverlap_spec type hc.invRest
    (show size + (start - start') ≤ start + size by omega) hfit
  have h3 := ht.le
  simp only [hsplit, hm', List.drop_left, List.take_left, hrun]
  have hsize : size + (start - start') + (end' - (start + size)) = end' - start' := by omega
  rw [hsize]
  by_cases hty : type = e820Hole
  · subst hty
    rw [if_neg (by simp)]
    refine ⟨hc.inv ht (by omega), ?_⟩
    have := (hc.overridesHole ht hinv).weakens.mono hsub fun _ _ => id
    simpa [addWrite] using this
  · rw [if_pos hty]
    have hw : addWrite start size type = ⟨start, start + size, some type⟩ := by
      simp [addWrite, hty]
    rw [hw]
    have hover := hc.overrides ht hinv
    rcases insertE820_cases pre.length ⟨start', end' - start', type⟩
      { m' with list := pre ++ rest' } with hin | hout
    · rw [insertE820_append rfl hin]
      exact ⟨hc.invInsert ht (by omega) hty, hover.weakens.mono hsub fun _ _ => id⟩
    · -- the new entry was refused
      rw [hout]
      refine ⟨hc.inv ht (by omega), hover.weakens.mono hsub fun a t ha => ?_⟩
      simp only [ranges, List.map_append, List.map_cons, has_append, has_cons] at ha ⊢
      exact ha.imp_right .inr

-- ---------------------------------------------------------------------------
-- Runs
-- ---------------------------------------------------------------------------

theorem addCalls_weak (cs : List AddCall) (hok : ∀ c ∈ cs, c.Ok) :
    E820Inv (addCalls cs).list ∧ (addCalls cs).list.length ≤ buildMaxE820 ∧
      ∀ a t, Has (ranges (addCalls cs).list) a t →
        lastWrite (cs.map AddCall.write) a = some t := by
  induction cs using List.reverseRecOn with
  | nil =>
    refine ⟨⟨canonical_nil, by simp [addCalls, emptyE820], by simp [addCalls, emptyE820]⟩, ?_, ?_⟩
    · exact Nat.zero_le _
    · intro a t ha
      exact absurd ha (by simp [addCalls, emptyE820, ranges])
  | append_singleton cs c ih =>
    obtain ⟨hinv, hlen, hmean⟩ := ih fun x hx => hok x (by simp [hx])
    obtain ⟨hpos, hfit⟩ := hok c (by simp)
    obtain ⟨hinv', hweak⟩ := addE820_weak c.type hinv hpos hfit
    rw [addCalls_concat]
    refine ⟨hinv', addE820_length c.start c.size c.type hlen, fun a t ha => ?_⟩
    rw [List.map_append, List.map_singleton]
    exact hweak.lastWrite hmean ha

instance (c : AddCall) : Decidable c.Ok := inferInstanceAs (Decidable (_ ∧ _))

/-- Whatever is refused, the table stays in order and within its bound, and
a type that it reports is the one of the last call over the address. -/
theorem addE820_overflow_safe (cs : List AddCall) (hok : ∀ c ∈ cs, c.Ok) :
    (∀ e ∈ (addCalls cs).list, 0 < e.size ∧ e.start + e.size < 2 ^ 64) ∧
    (addCalls cs).list.Pairwise (fun e f => e.start + e.size ≤ f.start) ∧
    (addCalls cs).list.length ≤ buildMaxE820 ∧
    ∀ a, (addCalls cs).typeAt a = some e820Ram → lastCall cs a = some e820Ram := by
  obtain ⟨⟨hcan, hent⟩, hlen, hmean⟩ := addCalls_weak cs hok
  refine ⟨fun e he => ?_, ?_, hlen, fun a ha => ?_⟩
  · have := hcan.nonempty e.range (List.mem_map_of_mem he)
    simp only [E820Entry.range] at this
    exact ⟨by omega, hent.fits e he⟩
  · exact (List.pairwise_map.mp hcan.sorted).imp And.left
  · rw [lastCall_eq]
    exact hmean a e820Ram (hcan.lookup_eq_some.mp ha)

/-- A table of 32 RAM pages with gaps, and a reserved range that splits one
of them: the split entry's tail and the new entry are both refused. -/
theorem addE820_overflow_safe_full :
    let cs : List AddCall := (List.range 32).map (fun i => ⟨0x10000 * i, 0x4000, e820Ram⟩) ++
      [⟨0x11000, 0x1000, e820Reserved⟩]
    (addCalls cs).warnNoalloc = 2 ∧ (addCalls cs).list.length = 32 ∧
    ∀ a, (addCalls cs).typeAt a = some e820Ram → lastCall cs a = some e820Ram :=
  ⟨by decide, by decide, (addE820_overflow_safe _ (by decide)).2.2.2⟩

end ItxLlama.Seabios
