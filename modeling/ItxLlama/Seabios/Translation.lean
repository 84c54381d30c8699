import ItxLlama.Seabios.Disk

/-!
# Geometry translation

`get_translation` and `setup_translation` of `block.c`. The build has no
`CONFIG_QEMU`: the translation comes from the geometry alone, and r-echs is
never chosen. `none` is a loop that does not end.
-/

namespace ItxLlama.Seabios

open Lib.Word

inductive Translation where
  | none
  | lba
  | large
  | rechs
  deriving DecidableEq, Repr

def getTranslation (pchs : Chs) (sectors : Nat) : Translation :=
  let heads := pchs.head
  let cylinders := pchs.cylinder
  let spt := pchs.sector
  let psectors := heads * cylinders * spt
  if heads = 0 ∨ cylinders = 0 ∨ spt = 0 ∨ psectors > sectors then .lba
  else if cylinders ≤ 1024 ∧ heads ≤ 16 ∧ spt ≤ 63 then .none
  -- the product is an `int`, negative from 2^31 on
  else if cylinders * heads ≤ 131072 ∨ 2 ^ 31 ≤ cylinders * heads then .large
  else .lba

/-- The heads for `sect` tracks of 63 sectors. -/
def lbaHeads (sect : Nat) : Nat :=
  let heads := u16 (sect / 1024)
  if heads > 128 then 255
  else if heads > 64 then 128
  else if heads > 32 then 64
  else if heads > 16 then 32
  else 16

def lbaTranslation (sectors : Nat) : Chs :=
  if sectors > 63 * 255 * 1024 then { head := 255, cylinder := 1024, sector := 63 }
  else
    let sect := u32 sectors / 63
    let heads := lbaHeads sect
    { head := heads, cylinder := u16 (sect / heads), sector := 63 }

/-- Every pass halves a 16-bit number. -/
def halvingFuel : Nat := 2 ^ 16

def largeLoop : (fuel : Nat) → (cylinders heads : Nat) → Option (Nat × Nat)
  | 0, _, _ => none
  | fuel + 1, cylinders, heads =>
    if cylinders > 1024 then
      let cylinders := cylinders >>> 1
      let heads := u16 (heads <<< 1)
      if heads > 127 then some (cylinders, heads) else largeLoop fuel cylinders heads
    else some (cylinders, heads)

def rechsTranslation (pchs : Chs) : Chs :=
  if pchs.head = 16 then
    let cylinders := if pchs.cylinder > 61439 then 61439 else pchs.cylinder
    { pchs with head := 15, cylinder := u16 (cylinders * 16 / 15) }
  else pchs

def largeTranslation (pchs : Chs) : Option Chs :=
  (largeLoop halvingFuel pchs.cylinder pchs.head).map fun p =>
    { pchs with cylinder := p.1, head := p.2 }

/-- The switch of `setup_translation`. -/
def translate (pchs : Chs) (sectors : Nat) : Translation → Option Chs
  | .none => some pchs
  | .lba => some (lbaTranslation sectors)
  | .rechs => largeTranslation (rechsTranslation pchs)
  | .large => largeTranslation pchs

def Chs.clip (c : Chs) : Chs :=
  { c with cylinder := if c.cylinder > 1024 then 1024 else c.cylinder }

/-- The logical geometry, clipped to 1024 cylinders. -/
def setupTranslation (pchs : Chs) (sectors : Nat) : Option (Translation × Chs) :=
  let translation := getTranslation pchs sectors
  (translate pchs sectors translation).map fun chs => (translation, chs.clip)

-- ---------------------------------------------------------------------------
-- The bounds
-- ---------------------------------------------------------------------------

structure Chs.Word (c : Chs) : Prop where
  head : c.head < 2 ^ 16
  cylinder : c.cylinder < 2 ^ 16
  sector : c.sector < 2 ^ 16

/-- A logical geometry that the INT 13h registers can address, on the disk. -/
structure Addressable (sectors : Nat) (t : Translation) (lchs : Chs) : Prop where
  cylinder : lchs.cylinder ≤ 1024
  head : lchs.head ≤ 255
  sector : lchs.sector ≤ 63
  total : t = .lba ∨ t = .large → lchs.total ≤ sectors

theorem lbaHeads_cases (sect : Nat) (hsect : sect ≤ 255 * 1024) :
    (lbaHeads sect = 16 ∨ lbaHeads sect = 32 ∨ lbaHeads sect = 64 ∨ lbaHeads sect = 128 ∨
      lbaHeads sect = 255) ∧ sect / lbaHeads sect < 2 ^ 16 := by
  have hu : u16 (sect / 1024) = sect / 1024 := u16_eq (by omega)
  simp only [lbaHeads, hu]
  split
  · omega
  split
  · omega
  split
  · omega
  split
  · omega
  · omega

theorem lbaTranslation_spec (sectors : Nat) : (lbaTranslation sectors).head ≤ 255 ∧
    (lbaTranslation sectors).sector = 63 ∧ (lbaTranslation sectors).total ≤ sectors := by
  simp only [lbaTranslation]
  split
  · refine ⟨Nat.le_refl _, rfl, ?_⟩
    simp only [Chs.total]
    omega
  · rename_i hle
    have hu : u32 sectors = sectors := u32_eq (by omega)
    rw [hu]
    obtain ⟨hheads, hcyl⟩ := lbaHeads_cases (sectors / 63) (by omega)
    have hmax : lbaHeads (sectors / 63) ≤ 255 := by omega
    refine ⟨hmax, rfl, ?_⟩
    simp only [Chs.total, u16_eq hcyl]
    have h1 := Nat.div_mul_le_self (sectors / 63) (lbaHeads (sectors / 63))
    have h2 := Nat.mul_le_mul_right 63 h1
    omega

theorem largeLoop_spec (heads : Nat) (hfuel : cylinders < fuel) :
    ∃ c h, largeLoop fuel cylinders heads = some (c, h) ∧ c * h ≤ cylinders * heads ∧
      (heads ≤ 127 → h ≤ 254) := by
  induction fuel generalizing cylinders heads with
  | zero => omega
  | succ fuel ih =>
    rw [largeLoop]
    by_cases hbig : cylinders > 1024
    · have hle : cylinders >>> 1 * u16 (heads <<< 1) ≤ cylinders * heads := by
        have h1 : cylinders >>> 1 * 2 ≤ cylinders := by
          rw [Nat.shiftRight_eq_div_pow]
          omega
        have h2 : u16 (heads <<< 1) ≤ 2 * heads := by
          simp only [u16, Nat.shiftLeft_eq]
          omega
        calc cylinders >>> 1 * u16 (heads <<< 1)
            ≤ cylinders >>> 1 * (2 * heads) := Nat.mul_le_mul_left _ h2
          _ = cylinders >>> 1 * 2 * heads := (Nat.mul_assoc ..).symm
          _ ≤ cylinders * heads := Nat.mul_le_mul_right _ h1
      rw [if_pos hbig]
      simp only
      by_cases hmax : u16 (heads <<< 1) > 127
      · rw [if_pos hmax]
        refine ⟨_, _, rfl, hle, fun h127 => ?_⟩
        simp only [u16, Nat.shiftLeft_eq] at *
        omega
      · rw [if_neg hmax]
        have hlt : cylinders >>> 1 < fuel := by
          rw [Nat.shiftRight_eq_div_pow]
          omega
        obtain ⟨c, h, heq, hprod, h254⟩ := ih (u16 (heads <<< 1)) hlt
        exact ⟨c, h, heq, Nat.le_trans hprod hle, fun _ => h254 (by omega)⟩
    · rw [if_neg hbig]
      exact ⟨_, _, rfl, Nat.le_refl _, fun h127 => by omega⟩

/-- The heads that the first pass makes are the last word from 128 on. -/
theorem largeLoop_head (hfuel : cylinders < fuel) (h : largeLoop fuel cylinders heads = some (c, k))
    :
    k ≤ 255 ↔ (if cylinders ≤ 1024 then heads else u16 (heads * 2)) ≤ 255 := by
  cases fuel with
  | zero => omega
  | succ fuel =>
    rw [largeLoop, Nat.shiftLeft_eq, Nat.pow_one] at h
    by_cases hbig : cylinders > 1024
    · rw [if_pos hbig] at h
      rw [if_neg (by omega)]
      simp only at h
      by_cases hmax : u16 (heads * 2) > 127
      · rw [if_pos hmax] at h
        cases h
        exact Iff.rfl
      · rw [if_neg hmax] at h
        have hlt : cylinders >>> 1 < fuel := by
          rw [Nat.shiftRight_eq_div_pow]
          omega
        obtain ⟨c', k', heq, -, h254⟩ := largeLoop_spec (u16 (heads * 2)) hlt
        rw [h] at heq
        cases heq
        have := h254 (by omega)
        omega
    · rw [if_neg hbig] at h
      rw [if_pos (by omega)]
      cases h
      exact Iff.rfl

theorem getTranslation_none (h : getTranslation pchs sectors = .none) :
    pchs.cylinder ≤ 1024 ∧ pchs.head ≤ 16 ∧ pchs.sector ≤ 63 := by
  simp only [getTranslation] at h
  split at h
  · cases h
  split at h
  · assumption
  · split at h <;> cases h

theorem getTranslation_large (h : getTranslation pchs sectors = .large) : pchs.total ≤ sectors := by
  simp only [getTranslation] at h
  split at h
  · cases h
  · rename_i hvalid
    rw [Chs.total, Nat.mul_comm pchs.cylinder]
    omega

theorem getTranslation_ne_rechs (pchs : Chs) (sectors : Nat) :
    getTranslation pchs sectors ≠ .rechs := by
  simp only [getTranslation]
  split
  · decide
  split
  · decide
  split <;> decide

@[simp] theorem clip_head (c : Chs) : c.clip.head = c.head := rfl

@[simp] theorem clip_sector (c : Chs) : c.clip.sector = c.sector := rfl

theorem clip_cylinder (c : Chs) : c.clip.cylinder ≤ 1024 ∧ c.clip.cylinder ≤ c.cylinder := by
  simp only [Chs.clip]
  split <;> omega

theorem clip_total (c : Chs) : c.clip.total ≤ c.total :=
  Nat.mul_le_mul_right _ (Nat.mul_le_mul_right _ (clip_cylinder c).2)

theorem setupTranslation_eq (ht : getTranslation pchs sectors = t)
    (h : translate pchs sectors t = some chs) :
    setupTranslation pchs sectors = some (t, chs.clip) := by
  simp only [setupTranslation, ht, h, Option.map_some]

theorem setupTranslation_cylinder (h : setupTranslation pchs sectors = some (t, lchs)) :
    lchs.cylinder ≤ 1024 := by
  simp only [setupTranslation, Option.map_eq_some_iff, Prod.mk.injEq] at h
  obtain ⟨chs, -, -, rfl⟩ := h
  exact (clip_cylinder chs).1

/-- The loop ends, and the geometry keeps the bounds, unless the large
translation takes over more than 63 sectors or makes more than 255 heads. -/
theorem setupTranslation_iff (pchs : Chs) (sectors : Nat) (hword : pchs.Word) :
    ∃ t lchs, setupTranslation pchs sectors = some (t, lchs) ∧
      (Addressable sectors t lchs ↔ getTranslation pchs sectors = .large →
        pchs.sector ≤ 63 ∧
          (if pchs.cylinder ≤ 1024 then pchs.head else u16 (pchs.head * 2)) ≤ 255) := by
  cases ht : getTranslation pchs sectors with
  | none =>
    obtain ⟨-, hhead, hsect⟩ := getTranslation_none ht
    refine ⟨_, _, setupTranslation_eq ht rfl, iff_of_true ?_ (by simp)⟩
    exact ⟨(clip_cylinder _).1, Nat.le_trans hhead (by decide), hsect, by simp⟩
  | lba =>
    obtain ⟨hhead, hsect, htotal⟩ := lbaTranslation_spec sectors
    refine ⟨_, _, setupTranslation_eq ht rfl, iff_of_true ?_ (by simp)⟩
    exact ⟨(clip_cylinder _).1, hhead, Nat.le_of_eq hsect,
      fun _ => Nat.le_trans (clip_total _) htotal⟩
  | large =>
    have hfuel : pchs.cylinder < halvingFuel := hword.cylinder
    obtain ⟨c, h, heq, hprod, -⟩ := largeLoop_spec pchs.head hfuel
    have hhead := largeLoop_head hfuel heq
    have htotal : c * h * pchs.sector ≤ sectors :=
      Nat.le_trans (Nat.mul_le_mul_right _ hprod) (getTranslation_large ht)
    have htranslate : translate pchs sectors .large = some ⟨h, c, pchs.sector⟩ := by
      simp only [translate, largeTranslation, heq, Option.map_some]
    refine ⟨_, _, setupTranslation_eq ht htranslate, ?_⟩
    constructor
    · rintro ⟨-, h255, h63, -⟩ -
      exact ⟨h63, hhead.mp h255⟩
    · intro hcond
      obtain ⟨h63, h255⟩ := hcond rfl
      exact ⟨(clip_cylinder _).1, hhead.mpr h255, h63, fun _ => Nat.le_trans (clip_total _) htotal⟩
  | rechs => exact absurd ht (getTranslation_ne_rechs pchs sectors)

/-- A disk of 2 GB, whose 4092 cylinders are halved twice. -/
theorem setupTranslation_iff_large :
    getTranslation ⟨16, 4092, 63⟩ 4124736 = .large ∧
      ∃ t lchs, setupTranslation ⟨16, 4092, 63⟩ 4124736 = some (t, lchs) ∧
        Addressable 4124736 t lchs := by
  obtain ⟨t, lchs, hset, hiff⟩ :=
    setupTranslation_iff ⟨16, 4092, 63⟩ 4124736 ⟨by decide, by decide, by decide⟩
  exact ⟨by decide, t, lchs, hset, hiff.mpr fun _ => ⟨by decide, by decide⟩⟩

/-- 256 heads of a geometry that is not translated at all. -/
theorem setupTranslation_256_heads :
    setupTranslation ⟨256, 500, 64⟩ 8192000 = some (.large, ⟨256, 500, 64⟩) ∧
      ¬ Addressable 8192000 .large ⟨256, 500, 64⟩ := by
  refine ⟨by decide, fun h => ?_⟩
  exact absurd h.head (by decide)

end ItxLlama.Seabios
