import ItxLlama.Coreboot.LowMemory
import Mathlib.Data.List.GetD

/-!
# What is allocated behind a bridge

`allocate_resources` places a resource above the base of the bridge, or leaves
its base alone. So what it places behind a window that the search finds keeps
clear of the RAM.
-/

namespace ItxLlama.Coreboot

open Lib.Word

/-- What an allocation from `base` up to `limit` makes of a resource. -/
structure Settled (base limit : Nat) (r r' : Resource) : Prop where
  size : r'.size = r.size
  align : r'.align = r.align
  lower : r'.limit ≤ r.limit
  placed : r'.base = r.base ∨ r.size = 0 ∨ base ≤ r'.base ∧ r'.base + r.size ≤ limit + 1

/-- Sizes and alignments whose sums have 64 bits. -/
structure Store.Small (h : Store) : Prop where
  size : ∀ p, (h.res p).size < 2 ^ 62
  align : ∀ p, (h.res p).align ≤ 62

/-- A base that has not run away: at most an I/O hole beyond a limit below `2 ^ 62`. -/
def Near (base : Nat) : Prop := base ≤ 2 ^ 62 ∨ base % 0x400 = 0 ∧ base ≤ 2 ^ 62 + 0x400

section

variable {base base' limit limit' : Nat} {r r' r'' : Resource} {h h' : Store} {p q bridge : ResPtr}

theorem Settled.refl (base limit : Nat) (r : Resource) : Settled base limit r r :=
  ⟨rfl, rfl, Nat.le_refl _, .inl rfl⟩

theorem Settled.trans (hr : Settled base limit r r') (hr' : Settled base limit r' r'') :
    Settled base limit r r'' := by
  refine ⟨hr'.size.trans hr.size, hr'.align.trans hr.align, hr'.lower.trans hr.lower, ?_⟩
  rcases hr'.placed with hkept | hzero | hplaced
  · rw [hkept]
    exact hr.placed
  · exact .inr (.inl (hr.size ▸ hzero))
  · rw [hr.size] at hplaced
    exact .inr (.inr hplaced)

theorem Settled.mono (hr : Settled base limit r r') (hbase : base' ≤ base) :
    Settled base' limit r r' := by
  refine { hr with placed := hr.placed.imp_right (Or.imp_right ?_) }
  rintro ⟨hlo, hhi⟩
  exact ⟨Nat.le_trans hbase hlo, hhi⟩

theorem Store.res_write (h : Store) (p q : ResPtr) (r : Resource) :
    (h.write p r).res q = h.res q ∨ q = p ∧ (h.write p r).res q = r := by
  unfold Store.write Store.res
  by_cases heq : q = p
  · subst heq
    rcases Nat.lt_or_ge q h.length with hin | hout
    · rw [List.getD_eq_getElem _ _ (by simpa using hin), List.getElem_set_self]
      exact .inr ⟨rfl, rfl⟩
    · rw [List.set_eq_of_length_le hout]
      exact .inl rfl
  · refine .inl ?_
    simp only [List.getD_eq_getElem?_getD, List.getElem?_set_ne (Ne.symm heq)]

theorem settled_write (hr : Settled base limit (h.res p) r) (q : ResPtr) :
    Settled base limit (h.res q) ((h.write p r).res q) := by
  rcases h.res_write p q r with heq | ⟨rfl, heq⟩
  · rw [heq]
    exact Settled.refl _ _ _
  · rw [heq]
    exact hr

theorem Store.Small.settled (hsmall : h.Small)
    (hkept : ∀ q, Settled base limit (h.res q) (h'.res q)) : h'.Small where
  size q := by
    rw [(hkept q).size]
    exact hsmall.size q
  align q := by
    rw [(hkept q).align]
    exact hsmall.align q

theorem near_skipLegacyIo (hbase : Near base) (r : Resource) :
    Near (skipLegacyIo r base) ∧ base ≤ skipLegacyIo r base := by
  unfold skipLegacyIo Near alignDown u64
  unfold Near at hbase
  split
  case isFalse => exact ⟨hbase, Nat.le_refl _⟩
  split
  case isTrue => omega
  split
  case isTrue => omega
  case isFalse => exact ⟨hbase, Nat.le_refl _⟩

theorem round_fits (hbase : Near base) (halign : a ≤ 62) (hsize : 0 < n) (hsmall : n < 2 ^ 62)
    (hlimit : limit < 2 ^ 62) (hfits : u64 (round base a + n + (2 ^ 64 - 1)) ≤ limit) :
    base ≤ round base a ∧ round base a + n ≤ limit + 1 := by
  have hpow : 2 ^ a ≤ 2 ^ 62 := Nat.pow_le_pow_right Nat.two_pos halign
  have hpos : 0 < 2 ^ a := Nat.two_pow_pos a
  have hsum : u64 (base + (2 ^ a - 1)) = base + (2 ^ a - 1) := by
    unfold Near at hbase
    exact u64_eq (by omega)
  have hlo := lt_alignDown_add (base + (2 ^ a - 1)) hpos
  have hhi := alignDown_le (base + (2 ^ a - 1)) (2 ^ a)
  unfold round at hfits ⊢
  rw [hsum] at hfits ⊢
  unfold Near at hbase
  unfold u64 at hfits
  omega

/-- One bus: every resource stays or is placed at or above `base`. -/
theorem allocateLoop_settled (hsmall : h.Small) (hlimit : (h.res bridge).limit ≤ limit)
    (hmax : limit < 2 ^ 62) (hbase : Near base)
    (hloop : allocateLoop bus bridge typeMask type fuel last base h = some h') :
    ∀ q, Settled base limit (h.res q) (h'.res q) := by
  induction fuel generalizing last base h with
  | zero => cases hloop
  | succ fuel ih =>
    -- the rest of the loop, from a store that this turn has settled
    have hgo (r : Resource) (p : ResPtr) (next : Nat) (hr : Settled base limit (h.res p) r)
        (hnext : Near next) (hle : base ≤ next)
        (hrest : allocateLoop bus bridge typeMask type fuel (some p) next (h.write p r) = some h') :
        ∀ q, Settled base limit (h.res q) (h'.res q) := by
      have hwrite := settled_write hr
      have hbridge := Nat.le_trans (hwrite bridge).lower hlimit
      intro q
      exact (hwrite q).trans ((ih (hsmall.settled hwrite) hbridge hnext hrest q).mono hle)
    unfold allocateLoop at hloop
    split at hloop
    case h_1 =>
      cases hloop
      exact fun q => Settled.refl _ _ _
    case h_2 p hfound =>
      extract_lets resource cut moved start at hloop
      have hlower : cut.limit ≤ (h.res p).limit := Nat.min_le_left _ _
      have hcut : cut.limit ≤ limit := Nat.le_trans (Nat.min_le_right _ _) hlimit
      obtain ⟨hnear, hmoved⟩ : Near moved ∧ base ≤ moved := near_skipLegacyIo hbase cut
      split at hloop
      case isTrue hzero =>
        refine hgo _ p base ?_ hbase (Nat.le_refl _) hloop
        exact ⟨rfl, rfl, hlower, .inr (.inl hzero)⟩
      case isFalse hsome =>
      split at hloop
      case isFalse => exact hgo cut p moved ⟨rfl, rfl, hlower, .inl rfl⟩ hnear hmoved hloop
      case isTrue hfits =>
        obtain ⟨hlo, hhi⟩ : moved ≤ start ∧ start + cut.size ≤ cut.limit + 1 :=
          round_fits hnear (hsmall.align p) (Nat.pos_of_ne_zero hsome) (hsmall.size p)
            (Nat.lt_of_le_of_lt hcut hmax) hfits
        have hstart : base ≤ start := Nat.le_trans hmoved hlo
        have hend : start + cut.size ≤ limit + 1 := Nat.le_trans hhi (Nat.succ_le_succ hcut)
        rw [u64_eq (by omega)] at hloop
        refine hgo _ p _ ?_ (.inl (Nat.le_trans hend hmax))
          (Nat.le_trans hstart (Nat.le_add_right _ _)) hloop
        exact ⟨rfl, rfl, hlower, .inr (.inr ⟨hstart, hend⟩)⟩

/-- `allocate_resources` of one bus, for its bridge: what changes its base, and has a size, is in
the window of the bridge. -/
theorem allocateBus_settled (hsmall : h.Small) (hmax : (h.res bridge).limit < 2 ^ 62)
    (hbase : (h.res bridge).base ≤ 2 ^ 62)
    (hbus : allocateBus bus bridge typeMask type h = some h') (p : ResPtr) :
    Settled (h.res bridge).base (h.res bridge).limit (h.res p) (h'.res p) := by
  obtain ⟨h₁, hloop, hwrite⟩ := Option.bind_eq_some_iff.mp hbus
  obtain rfl := Option.some.inj hwrite
  have hkept := allocateLoop_settled hsmall (Nat.le_refl _) hmax (.inl hbase) hloop p
  refine hkept.trans (settled_write ?_ p)
  exact ⟨rfl, rfl, Nat.le_refl _, .inl rfl⟩

/-- What is given an address behind a bridge is clear of the RAM, where the search finds the
window of the bridge or one below it. -/
theorem allocateBus_clear {root : Devices} (hsmall : h.Small)
    (hmax : (h.res bridge).limit < 2 ^ 62) (hbase : (h.res bridge).base ≤ 2 ^ 62)
    (hbus : allocateBus bus bridge typeMask type h = some h') (hw : w ∈ tolmResources h' root)
    (hfound : holeEnd ≤ (h'.res w).base) (hle : (h'.res w).base ≤ (h.res bridge).base)
    (sizeReg : BitVec 16) (p : ResPtr) :
    (h'.res p).base = (h.res p).base ∨ Clear h' root sizeReg (h'.res p) := by
  have hkept := allocateBus_settled hsmall hmax hbase hbus p
  rcases hkept.placed with hsame | hzero | ⟨hlo, -⟩
  · exact .inl hsame
  · exact .inr (.inl (hkept.size.trans hzero))
  · exact .inr (clear_of_window hw hfound (hle.trans hlo))

end

end ItxLlama.Coreboot
