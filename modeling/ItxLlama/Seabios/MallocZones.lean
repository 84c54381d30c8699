import ItxLlama.Lib.Carve
import ItxLlama.Seabios.MallocList
import Mathlib.Data.List.Perm.Basic
import Mathlib.Data.List.Perm.Subperm
import Mathlib.Data.List.Nodup

/-!
# Zones as carved regions

What the lists of `malloc.c` stand for. Every region added to a zone has a
base record and, in front of it in the list, one record for each block carved
off the region's top; the `allocend` of a record is where the block above it
starts, so it is not kept twice. A block is a detail record of the allocator
or an allocation of a client, and the records lie in the detail blocks: each
detail holds its own record and that of one allocation or base.
-/

namespace ItxLlama.Seabios

open Lib.Hlist Lib.Carve

inductive Kind where
  | detail
  | user (size align : Nat)
  deriving DecidableEq, Repr

/-- A block carved off a region, and the address of its `allocinfo_s`. -/
structure Chunk where
  addr : Nat
  data : Nat
  dataend : Nat
  kind : Kind
  deriving DecidableEq, Repr

/-- `addr` is the base record. -/
structure Region where
  zone : Zone
  start : Nat
  fin : Nat
  addr : Nat
  chunks : List Chunk
  deriving DecidableEq, Repr

/-- An allocation as its caller asked for it. -/
structure Block where
  zone : Zone
  ptr : Nat
  size : Nat
  align : Nat
  deriving DecidableEq, Repr

-- ---------------------------------------------------------------------------
-- The records of a zone's list
-- ---------------------------------------------------------------------------

def infosFrom (base start top : Nat) : List Chunk → List AllocInfo
  | [] => [⟨base, start, start, top⟩]
  | c :: cs => ⟨c.addr, c.data, c.dataend, top⟩ :: infosFrom base start c.data cs

/-- The records of the blocks `pre`. -/
def preInfos (top : Nat) : List Chunk → List AllocInfo
  | [] => []
  | c :: cs => ⟨c.addr, c.data, c.dataend, top⟩ :: preInfos c.data cs

/-- The record behind a slack that ends at `top`: the next block's, or the base. -/
def headInfo (base start top : Nat) : List Chunk → AllocInfo
  | [] => ⟨base, start, start, top⟩
  | c :: _ => ⟨c.addr, c.data, c.dataend, top⟩

def tailInfos (base start : Nat) : List Chunk → List AllocInfo
  | [] => []
  | c :: cs => infosFrom base start c.data cs

def Region.infos (r : Region) : List AllocInfo := infosFrom r.addr r.start r.fin r.chunks

def zoneInfos (z : Zone) (gs : List Region) : List AllocInfo :=
  (gs.filter fun r => r.zone = z).flatMap Region.infos

theorem infosFrom_eq (base start top : Nat) (post : List Chunk) :
    infosFrom base start top post = headInfo base start top post :: tailInfos base start post := by
  cases post <;> rfl

theorem infosFrom_append (base start top : Nat) (pre post : List Chunk) :
    infosFrom base start top (pre ++ post) =
      preInfos top pre ++ infosFrom base start (topAfter Chunk.data top pre) post := by
  induction pre generalizing top with
  | nil => rfl
  | cons c pre ih => simp [infosFrom, preInfos, ih]

/-- A record in the list is behind some blocks of its region and before others. -/
theorem infosFrom_split (h : infosFrom base start top cs = A ++ x :: B) :
    ∃ pre post, cs = pre ++ post ∧ A = preInfos top pre ∧
      x = headInfo base start (topAfter Chunk.data top pre) post ∧
        B = tailInfos base start post := by
  induction cs generalizing top A with
  | nil =>
    cases A with
    | nil =>
      rw [List.nil_append] at h
      obtain ⟨rfl, rfl⟩ := List.cons.inj h
      exact ⟨[], [], rfl, rfl, rfl, rfl⟩
    | cons a A => simp [infosFrom] at h
  | cons c cs ih =>
    cases A with
    | nil =>
      rw [List.nil_append] at h
      obtain ⟨rfl, rfl⟩ := List.cons.inj h
      exact ⟨[], c :: cs, rfl, rfl, rfl, rfl⟩
    | cons a A =>
      obtain ⟨ha, hcs⟩ := List.cons.inj h
      obtain ⟨pre, post, rfl, rfl, rfl, rfl⟩ := ih hcs
      subst ha
      exact ⟨c :: pre, post, rfl, rfl, rfl, rfl⟩

@[simp] theorem zoneInfos_nil (z : Zone) : zoneInfos z [] = [] := rfl

@[simp] theorem zoneInfos_append (z : Zone) (gs gs' : List Region) :
    zoneInfos z (gs ++ gs') = zoneInfos z gs ++ zoneInfos z gs' := by
  simp [zoneInfos]

theorem zoneInfos_cons_same (r : Region) (gs : List Region) :
    zoneInfos r.zone (r :: gs) = r.infos ++ zoneInfos r.zone gs := by
  simp [zoneInfos]

theorem zoneInfos_cons_other (gs : List Region) (h : r.zone ≠ z) :
    zoneInfos z (r :: gs) = zoneInfos z gs := by
  simp [zoneInfos, h]

theorem zoneInfos_split {gs : List Region} (h : zoneInfos z gs = A ++ x :: B) :
    ∃ gs₁ r gs₂ pre post, gs = gs₁ ++ r :: gs₂ ∧ r.zone = z ∧ r.chunks = pre ++ post ∧
      A = zoneInfos z gs₁ ++ preInfos r.fin pre ∧
      x = headInfo r.addr r.start (topAfter Chunk.data r.fin pre) post ∧
      B = tailInfos r.addr r.start post ++ zoneInfos z gs₂ := by
  induction gs generalizing A with
  | nil => simp at h
  | cons r gs ih =>
    by_cases hz : r.zone = z
    · subst hz
      rw [zoneInfos_cons_same, List.append_eq_append_iff] at h
      rcases h with ⟨A', hA, h⟩ | ⟨C, hr, h⟩
      · obtain ⟨gs₁, s, gs₂, pre, post, rfl, h1, h2, h3, h4, h5⟩ := ih h
        refine ⟨r :: gs₁, s, gs₂, pre, post, rfl, h1, h2, ?_, h4, h5⟩
        rw [hA, h3, zoneInfos_cons_same, List.append_assoc]
      · cases C with
        | nil =>
          obtain ⟨gs₁, s, gs₂, pre, post, rfl, h1, h2, h3, h4, h5⟩ := ih (A := []) h.symm
          refine ⟨r :: gs₁, s, gs₂, pre, post, rfl, h1, h2, ?_, h4, h5⟩
          rw [zoneInfos_cons_same, List.append_assoc, ← h3, hr]
          simp
        | cons y C =>
          obtain ⟨hxy, hB⟩ := List.cons.inj h
          subst hxy
          obtain ⟨pre, post, h1, h2, h3, h4⟩ := infosFrom_split hr
          exact ⟨[], r, gs, pre, post, rfl, rfl, h1, by simp [h2], h3, by rw [hB, h4]; rfl⟩
    · rw [zoneInfos_cons_other gs hz] at h
      obtain ⟨gs₁, s, gs₂, pre, post, rfl, h1, h2, h3, h4, h5⟩ := ih h
      refine ⟨r :: gs₁, s, gs₂, pre, post, rfl, h1, h2, ?_, h4, h5⟩
      rw [zoneInfos_cons_other _ hz, h3]

theorem zoneInfos_region {r : Region} (h : r.zone = z) (hr : r.chunks = pre ++ post)
    (gs₁ gs₂ : List Region) :
    zoneInfos z (gs₁ ++ r :: gs₂) =
      (zoneInfos z gs₁ ++ preInfos r.fin pre) ++
        headInfo r.addr r.start (topAfter Chunk.data r.fin pre) post ::
          (tailInfos r.addr r.start post ++ zoneInfos z gs₂) := by
  subst h
  rw [zoneInfos_append, zoneInfos_cons_same, Region.infos, hr, infosFrom_append, infosFrom_eq]
  simp

-- ---------------------------------------------------------------------------
-- The blocks, and the records in them
-- ---------------------------------------------------------------------------

def blocks (gs : List Region) : List (Zone × Chunk) :=
  gs.flatMap fun r => r.chunks.map (Prod.mk r.zone)

def asDetail : Zone × Chunk → Option Nat
  | (_, c) => match c.kind with
    | .detail => some c.data
    | .user _ _ => none

def asUser : Zone × Chunk → Option Block
  | (z, c) => match c.kind with
    | .detail => none
    | .user size align => some ⟨z, c.data, size, align⟩

def asOwner : Zone × Chunk → Option Nat
  | (_, c) => match c.kind with
    | .detail => none
    | .user _ _ => some c.addr

def details (gs : List Region) : List Nat := (blocks gs).filterMap asDetail

def users (gs : List Region) : List Block := (blocks gs).filterMap asUser

/-- The records that are not detail records themselves. -/
def owners (gs : List Region) : List Nat :=
  gs.map Region.addr ++ (blocks gs).filterMap asOwner

/-- `datainfo` of a detail. -/
def datainfo (d : Nat) : Nat := d + infoSize

/-- A region as it was added: what stays of it in every allocation and free. -/
def Region.bare (r : Region) : Region := { r with chunks := [] }

def Chunk.Ok (c : Chunk) : Prop :=
  match c.kind with
  | .detail => c.addr = c.data ∧ c.dataend = c.data + detailSize
  | .user size align => c.dataend = c.data + size ∧ align ∣ c.data

structure Region.Ok (r : Region) : Prop where
  pos : 0 < r.start
  word : r.fin < 2 ^ 32
  carved : Carved Chunk.data Chunk.dataend r.start r.fin r.chunks
  chunks : ∀ c ∈ r.chunks, c.Ok

def Region.Off (r s : Region) : Prop := r.fin ≤ s.start ∨ s.fin ≤ r.start

theorem Region.Off.symm {r s : Region} (h : r.Off s) : s.Off r := Or.symm h

/-- The allocator's books. `pend` are the data records reserved but not yet
in a list, `tmp` those in a list but not in a detail. -/
structure Books (gs : List Region) (pend tmp : List Nat) : Prop where
  ok : ∀ r ∈ gs, r.Ok
  off : gs.Pairwise Region.Off
  balance : (owners gs ++ pend).Perm ((details gs).map datainfo ++ tmp)
  tmp : tmp = [] ∨ tmp = [tempDatainfo]

theorem mem_blocks {gs : List Region} :
    p ∈ blocks gs ↔ ∃ r ∈ gs, p.1 = r.zone ∧ p.2 ∈ r.chunks := by
  simp only [blocks, List.mem_flatMap, List.mem_map]
  constructor
  · rintro ⟨r, hr, c, hc, rfl⟩
    exact ⟨r, hr, rfl, hc⟩
  · rintro ⟨r, hr, hz, hc⟩
    exact ⟨r, hr, p.2, hc, by rw [← hz]⟩

theorem mem_details {gs : List Region} :
    d ∈ details gs ↔ ∃ p ∈ blocks gs, p.2.kind = .detail ∧ p.2.data = d := by
  simp only [details, List.mem_filterMap]
  constructor
  · rintro ⟨⟨z, c⟩, hp, h⟩
    refine ⟨(z, c), hp, ?_⟩
    cases hk : c.kind with
    | detail => simpa [asDetail, hk] using h
    | user => simp [asDetail, hk] at h
  · rintro ⟨⟨z, c⟩, hp, hk, rfl⟩
    exact ⟨(z, c), hp, by simp only at hk; simp [asDetail, hk]⟩

theorem mem_users {gs : List Region} : b ∈ users gs ↔
    ∃ p ∈ blocks gs, p.2.kind = .user b.size b.align ∧ p.2.data = b.ptr ∧ p.1 = b.zone := by
  simp only [users, List.mem_filterMap]
  constructor
  · rintro ⟨⟨z, c⟩, hp, h⟩
    refine ⟨(z, c), hp, ?_⟩
    cases hk : c.kind with
    | detail => simp [asUser, hk] at h
    | user size align =>
      simp only [asUser, hk, Option.some.injEq] at h
      subst h
      exact ⟨rfl, rfl, rfl⟩
  · rintro ⟨⟨z, c⟩, hp, hk, hd, hz⟩
    simp only at hk hd hz
    exact ⟨(z, c), hp, by simp [asUser, hk, hd, hz]⟩

-- ---------------------------------------------------------------------------
-- No two blocks, and no two records, overlap
-- ---------------------------------------------------------------------------

def BlocksOff (p q : Zone × Chunk) : Prop := p.2.dataend ≤ q.2.data ∨ q.2.dataend ≤ p.2.data

theorem BlocksOff.symm (h : BlocksOff p q) : BlocksOff q p := Or.symm h

section Overlap

variable {gs : List Region} {pend tmp : List Nat}

theorem Books.block_bounds (h : Books gs pend tmp) (hp : p ∈ blocks gs) :
    ∃ r ∈ gs, r.zone = p.1 ∧ r.start ≤ p.2.data ∧ p.2.data < p.2.dataend ∧ p.2.dataend ≤ r.fin := by
  obtain ⟨r, hr, hz, hc⟩ := mem_blocks.mp hp
  exact ⟨r, hr, hz.symm, (h.ok r hr).carved.bounds hc⟩

theorem Books.block_ok (h : Books gs pend tmp) (hp : p ∈ blocks gs) : p.2.Ok := by
  obtain ⟨r, hr, -, hc⟩ := mem_blocks.mp hp
  exact (h.ok r hr).chunks _ hc

theorem Books.blocks_off (h : Books gs pend tmp) : (blocks gs).Pairwise BlocksOff := by
  refine List.pairwise_flatMap.mpr ⟨fun r hr => ?_, ?_⟩
  · refine List.pairwise_map.mpr ((h.ok r hr).carved.pairwise.imp fun hcd => ?_)
    exact .inr hcd
  · refine (h.off.imp_of_mem fun hr hs hrs => ?_)
    intro p hp q hq
    simp only [List.mem_map] at hp hq
    obtain ⟨c, hc, rfl⟩ := hp
    obtain ⟨d, hd, rfl⟩ := hq
    have := (h.ok _ hr).carved.bounds hc
    have := (h.ok _ hs).carved.bounds hd
    simp only [Region.Off, BlocksOff] at hrs ⊢
    omega

theorem Books.detail_bounds (h : Books gs pend tmp) (hd : d ∈ details gs) :
    0 < d ∧ d + detailSize < 2 ^ 32 := by
  obtain ⟨p, hp, hk, rfl⟩ := mem_details.mp hd
  obtain ⟨r, hr, -, h1, h2, h3⟩ := h.block_bounds hp
  have hok := h.block_ok hp
  simp only [Chunk.Ok, hk] at hok
  have := (h.ok r hr).pos
  have := (h.ok r hr).word
  omega

theorem Books.details_apart (h : Books gs pend tmp) :
    (details gs).Pairwise (Apart detailSize) := by
  refine (h.blocks_off.imp_of_mem fun {p q} hp hq hpq => ?_).filterMap asDetail
    (S := Apart detailSize)
    (R := fun p q => BlocksOff p q ∧ p.2.Ok ∧ q.2.Ok) ?_
  · exact ⟨hpq, h.block_ok hp, h.block_ok hq⟩
  · rintro ⟨z, c⟩ ⟨z', d⟩ ⟨hpq, hp, hq⟩ a ha b hb
    cases hc : c.kind with
    | user => simp [asDetail, hc] at ha
    | detail =>
      cases hd : d.kind with
      | user => simp [asDetail, hd] at hb
      | detail =>
        simp only [asDetail, hc, hd, Option.some.injEq] at ha hb
        simp only [Chunk.Ok, hc, hd] at hp hq
        simp only [BlocksOff] at hpq
        simp only [Apart]
        omega

/-- Every record is the first or the second half of a detail, or the one on
the stack; counted with those that wait for their list, none is missing. -/
theorem Books.records_apart (h : Books gs pend tmp) :
    (details gs ++ (owners gs ++ pend)).Pairwise (Apart infoSize) := by
  have hperm := h.balance.append_left (details gs)
  rw [hperm.pairwise_iff fun h => h.symm]
  have hap := h.details_apart
  refine List.pairwise_append.mpr ⟨hap.imp fun h => h.mono (by decide),
    List.pairwise_append.mpr ⟨?_, ?_, ?_⟩, ?_⟩
  · refine List.pairwise_map.mpr (hap.imp fun hab => ?_)
    simp only [Apart, datainfo, detailSize, infoSize] at hab ⊢
    omega
  · rcases h.tmp with rfl | rfl
    · exact .nil
    · exact List.pairwise_singleton _ _
  · intro a ha t ht
    obtain ⟨d, hd, rfl⟩ := List.mem_map.mp ha
    have := h.detail_bounds hd
    have : t = tempDatainfo := by rcases h.tmp with rfl | rfl <;> simp_all
    simp only [Apart, datainfo, detailSize, infoSize, tempDatainfo] at *
    omega
  · intro a ha b hb
    have := h.detail_bounds ha
    rcases List.mem_append.mp hb with hb | hb
    · obtain ⟨d, hd, rfl⟩ := List.mem_map.mp hb
      have := apart_or_eq hap ha hd
      simp only [Apart, datainfo, detailSize, infoSize] at *
      omega
    · have : b = tempDatainfo := by rcases h.tmp with rfl | rfl <;> simp_all
      simp only [Apart, detailSize, infoSize, tempDatainfo] at *
      omega

end Overlap

end ItxLlama.Seabios
