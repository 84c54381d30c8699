import ItxLlama.Seabios.Malloc

/-!
# Lists of segments in memory

`ListAt m loc l`: behind the word `loc` the memory holds the list of the
`allocinfo_s` records `l`. Each update the allocator makes to a zone's list
is a lemma about `l`, and touches no byte but those of the list's records
and its head.
-/

namespace ItxLlama.Seabios

open Lib.Hlist

structure AllocInfo where
  addr : Nat
  data : Nat
  dataend : Nat
  allocend : Nat
  deriving DecidableEq, Repr

/-- `sizeof(struct allocinfo_s)` -/
def infoSize : Nat := 20

structure AllocInfo.At (n : AllocInfo) (m : Mem) : Prop where
  data : m (n.addr + 8) = n.data
  dataend : m (n.addr + 12) = n.dataend
  allocend : m (n.addr + 16) = n.allocend

def addrs (l : List AllocInfo) : List Nat := l.map AllocInfo.addr

@[simp] theorem addrs_nil : addrs [] = [] := rfl

@[simp] theorem addrs_cons (n : AllocInfo) (l : List AllocInfo) :
    addrs (n :: l) = n.addr :: addrs l := rfl

@[simp] theorem addrs_append (l l' : List AllocInfo) : addrs (l ++ l') = addrs l ++ addrs l' :=
  List.map_append

theorem mem_addrs {l : List AllocInfo} : a ∈ addrs l ↔ ∃ n ∈ l, n.addr = a := List.mem_map

structure ListAt (m : Mem) (loc : Nat) (l : List AllocInfo) : Prop where
  chain : Chain m loc (addrs l)
  infos : ∀ n ∈ l, n.At m

/-- The list's head and its records do not overlap. -/
def Separate (loc : Nat) (as : List Nat) : Prop := (loc :: as).Pairwise (Apart infoSize)

-- ---------------------------------------------------------------------------
-- Frames
-- ---------------------------------------------------------------------------

/-- `m'` differs from `m` in the records at `T` only. -/
def Touches (T : List Nat) (m m' : Mem) : Prop :=
  ∀ k, (∀ t ∈ T, k < t ∨ t + infoSize ≤ k) → m' k = m k

theorem Touches.trans (h : Touches T m m') (h' : Touches T m' m'') : Touches T m m'' :=
  fun k hk => (h' k hk).trans (h k hk)

theorem Touches.mono {T T' : List Nat} (h : Touches T m m') (hT : ∀ t ∈ T, t ∈ T') :
    Touches T' m m' :=
  fun k hk => h k fun t ht => hk t (hT t ht)

theorem touches_store {T : List Nat} (m : Mem) (v : Nat) (ht : t ∈ T) (hi : i < infoSize) :
    Touches T m (store m (t + i) v) := fun k hk => by
  have := hk t ht
  exact store_ne _ _ (by omega)

theorem touches_hlistAdd {T : List Nat} (hn : n ∈ T) (hp : p ∈ T) (hnext : m p ≠ 0 → m p ∈ T) :
    Touches T m (hlistAdd m n p) := fun k hk => by
  have h1 := hk n hn
  have h2 := hk p hp
  have h3 := fun h0 => hk _ (hnext h0)
  simp only [infoSize] at h1 h2 h3
  exact hlistAdd_other m (by omega) (by omega) (by omega) (by omega)

theorem touches_hlistDel {T : List Nat} (hp : m (n + 4) ∈ T) (hnext : m n ≠ 0 → m n ∈ T) :
    Touches T m (hlistDel m n) := fun k hk => by
  have h2 := hk _ hp
  have h3 := fun h0 => hk _ (hnext h0)
  simp only [infoSize] at h2 h3
  exact hlistDel_other m (by omega) (by omega)

theorem Touches.word {T : List Nat} (h : Touches T m m') (hT : ∀ t ∈ T, Apart infoSize a t)
    (hi : i < infoSize) : m' (a + i) = m (a + i) :=
  h _ fun t ht => by
    have := hT t ht
    simp only [Apart] at this
    omega

theorem AllocInfo.At.frame {n : AllocInfo} (h : n.At m)
    (hw : ∀ i, 8 ≤ i → i < infoSize → m' (n.addr + i) = m (n.addr + i)) : n.At m' :=
  ⟨(hw 8 (by decide) (by decide)).trans h.data, (hw 12 (by decide) (by decide)).trans h.dataend,
    (hw 16 (by decide) (by decide)).trans h.allocend⟩

theorem ListAt.frame {l : List AllocInfo} (h : ListAt m loc l) (ht : Touches T m m')
    (hT : ∀ a ∈ loc :: addrs l, ∀ t ∈ T, Apart infoSize a t) : ListAt m' loc l := by
  have hw : ∀ a ∈ loc :: addrs l, ∀ i < infoSize, m' (a + i) = m (a + i) :=
    fun a ha i hi => ht.word (hT a ha) hi
  refine ⟨h.chain.frame (hw loc (by simp) 0 (by decide)) fun a ha => ?_, fun n hn => ?_⟩
  · exact ⟨hw a (by simp [ha]) 0 (by decide), hw a (by simp [ha]) 4 (by decide)⟩
  · exact (h.infos n hn).frame fun i _ hi =>
      hw n.addr (List.mem_cons_of_mem _ (mem_addrs.mpr ⟨n, hn, rfl⟩)) i hi

-- ---------------------------------------------------------------------------
-- Updates of a list
-- ---------------------------------------------------------------------------

section Updates

variable {m m' : Mem} {loc : Nat} {A B : List AllocInfo} {n x : AllocInfo}

theorem mem_records (loc : Nat) (A B : List AllocInfo) (x : AllocInfo) :
    x.addr ∈ loc :: addrs (A ++ x :: B) := by simp

theorem ListAt.setRecord (h : ListAt m loc (A ++ x :: B))
    (hs : Separate loc (addrs (A ++ x :: B))) {x' : AllocInfo} (haddr : x'.addr = x.addr)
    (hx' : x'.At m') (hkeep : ∀ k, (k < x.addr + 8 ∨ x.addr + infoSize ≤ k) → m' k = m k) :
    ListAt m' loc (A ++ x' :: B) := by
  have hx : ∀ a ∈ loc :: addrs (A ++ x :: B), ∀ i < infoSize, a ≠ x.addr ∨ i < 8 →
      m' (a + i) = m (a + i) := by
    intro a ha i hi hne
    have hx := apart_or_eq hs ha (mem_records loc A B x)
    simp only [Apart, infoSize] at hx hi hkeep
    exact hkeep _ (by omega)
  have keep : ∀ a ∈ A ++ B, a.At m' := by
    intro a ha
    have hs' : (x.addr :: (loc :: (addrs A ++ addrs B))).Pairwise (Apart infoSize) := by
      have hp : (loc :: addrs (A ++ x :: B)).Perm (x.addr :: (loc :: (addrs A ++ addrs B))) := by
        simp only [addrs_append, addrs_cons]
        exact (List.perm_middle.cons loc).trans (List.Perm.swap ..)
      exact (hp.pairwise_iff fun h => h.symm).mp hs
    have ha' : a.addr ∈ addrs A ++ addrs B := by
      rw [← addrs_append]
      exact mem_addrs.mpr ⟨a, ha, rfl⟩
    have hne := ((List.pairwise_cons.mp hs').1 a.addr (by simp [ha'])).ne (by decide)
    refine (h.infos a ?_).frame fun i _ hi => hx a.addr ?_ i hi (.inl (Ne.symm hne))
    · simp only [List.mem_append, List.mem_cons] at ha ⊢
      tauto
    · simp only [addrs_append, addrs_cons, List.mem_append, List.mem_cons] at ha' ⊢
      tauto
  have hc : Chain m' loc (addrs (A ++ x :: B)) :=
    h.chain.frame (hx loc (by simp) 0 (by decide) (.inr (by decide))) fun a ha =>
      ⟨hx a (List.mem_cons_of_mem _ ha) 0 (by decide) (.inr (by decide)),
        hx a (List.mem_cons_of_mem _ ha) 4 (by decide) (.inr (by decide))⟩
  refine ⟨by simpa [haddr] using hc, fun a ha => ?_⟩
  simp only [List.mem_append, List.mem_cons] at ha
  rcases ha with ha | rfl | ha
  · exact keep a (by simp [ha])
  · exact hx'
  · exact keep a (by simp [ha])

theorem ListAt.setAllocend (h : ListAt m loc (A ++ x :: B))
    (hs : Separate loc (addrs (A ++ x :: B))) (v : Nat) :
    ListAt (store m (x.addr + 16) v) loc (A ++ { x with allocend := v } :: B) := by
  have hxi := h.infos x (by simp)
  have hat : AllocInfo.At { x with allocend := v } (store m (x.addr + 16) v) :=
    ⟨(store_ne _ _ (by simp)).trans hxi.data, (store_ne _ _ (by simp)).trans hxi.dataend,
      store_same ..⟩
  refine h.setRecord hs rfl hat fun k hk => ?_
  simp only [infoSize] at hk
  exact store_ne _ _ (by omega)

theorem ListAt.add (h : ListAt m loc (A ++ B)) (hn : n.At m) (h0 : n.addr ≠ 0)
    (hs : Separate loc (addrs (A ++ n :: B))) :
    ListAt (hlistAdd m n.addr (lastLoc loc (addrs A))) loc (A ++ n :: B) := by
  have hc : Chain m loc (addrs A ++ addrs B) := by simpa using h.chain
  have hs' : (loc :: (addrs A ++ n.addr :: addrs B)).Pairwise (Apart infoSize) := by
    rw [Separate, addrs_append, addrs_cons] at hs
    exact hs
  refine ⟨by simpa using hc.add h0 (hs'.imp fun h => h.mono (by decide)), fun a ha => ?_⟩
  have hat : a.At m := by
    simp only [List.mem_append, List.mem_cons] at ha
    rcases ha with ha | rfl | ha
    · exact h.infos a (by simp [ha])
    · exact hn
    · exact h.infos a (by simp [ha])
  have ham : a.addr ∈ loc :: (addrs A ++ n.addr :: addrs B) := by
    simpa using List.mem_cons_of_mem loc (mem_addrs.mpr ⟨a, ha, rfl⟩)
  exact hat.frame fun i h8 hi => hc.add_payload hs' ham h8 hi

theorem ListAt.del (h : ListAt m loc (A ++ n :: B))
    (hs : Separate loc (addrs (A ++ n :: B))) : ListAt (hlistDel m n.addr) loc (A ++ B) := by
  have hc : Chain m loc (addrs A ++ n.addr :: addrs B) := by simpa using h.chain
  have hs' : (loc :: (addrs A ++ n.addr :: addrs B)).Pairwise (Apart infoSize) := by
    rw [Separate, addrs_append, addrs_cons] at hs
    exact hs
  refine ⟨by simpa using hc.del (hs'.imp fun h => h.mono (by decide)), fun a ha => ?_⟩
  have ha' : a ∈ A ++ n :: B := by
    simp only [List.mem_append, List.mem_cons] at ha ⊢
    tauto
  have ham : a.addr ∈ loc :: (addrs A ++ n.addr :: addrs B) := by
    simpa using List.mem_cons_of_mem loc (mem_addrs.mpr ⟨a, ha', rfl⟩)
  exact (h.infos a ha').frame fun i h8 hi => hc.del_payload hs' ham h8 hi

theorem ListAt.touches_add (h : ListAt m loc (A ++ B)) (n : Nat) :
    Touches (loc :: n :: addrs (A ++ B)) m (hlistAdd m n (lastLoc loc (addrs A))) := by
  have hc : Chain m loc (addrs A ++ addrs B) := by simpa using h.chain
  obtain ⟨hp, hnext⟩ := hc.end_mem (l := loc :: n :: addrs (A ++ B))
    (fun a ha => by simp only [addrs_append, List.mem_cons, List.mem_append] at ha ⊢; tauto)
    (fun b hb => by simp [hb])
  exact touches_hlistAdd (by simp) hp hnext

theorem ListAt.touches_del (h : ListAt m loc (A ++ n :: B)) :
    Touches (loc :: addrs (A ++ n :: B)) m (hlistDel m n.addr) := by
  have hc : Chain m loc (addrs A ++ n.addr :: addrs B) := by simpa using h.chain
  have hc' : Chain m loc ((addrs A ++ [n.addr]) ++ addrs B) := by simpa using h.chain
  refine touches_hlistDel ?_ ?_
  · rw [hc.pprev]
    have := lastLoc_mem loc (addrs A)
    simp only [addrs_append, List.mem_cons, List.mem_append] at this ⊢
    tauto
  · have := (hc'.end_mem (l := loc :: addrs (A ++ n :: B))
      (fun a ha => by
        simp only [addrs_append, addrs_cons, List.mem_cons, List.mem_append] at ha ⊢; tauto)
      (fun b hb => by simp [hb])).2
    simpa [lastLoc] using this

/-- A segment split off the top of `x`, with its record at a free place. -/
theorem ListAt.reserve (h : ListAt m loc (A ++ x :: B)) (new de : Nat) (h0 : fill ≠ 0)
    (hs : Separate loc (addrs (A ++ ⟨fill, new, de, x.allocend⟩ :: x :: B))) :
    ListAt
      (hlistAddBefore (store (store (store (store m (fill + 8) new) (fill + 12) de) (fill + 16)
        x.allocend) (x.addr + 16) new) fill x.addr)
      loc (A ++ ⟨fill, new, de, x.allocend⟩ :: { x with allocend := new } :: B) ∧
    Touches (loc :: fill :: addrs (A ++ x :: B)) m
      (hlistAddBefore (store (store (store (store m (fill + 8) new) (fill + 12) de) (fill + 16)
        x.allocend) (x.addr + 16) new) fill x.addr) := by
  have hperm : (loc :: addrs (A ++ ⟨fill, new, de, x.allocend⟩ :: x :: B)).Perm
      (fill :: loc :: addrs (A ++ x :: B)) := by
    simp only [addrs_append, addrs_cons]
    exact (List.perm_middle.cons loc).trans (List.Perm.swap ..)
  obtain ⟨hf, hsx⟩ := List.pairwise_cons.mp ((hperm.pairwise_iff fun h => h.symm).mp hs)
  -- the new record's words
  have t1 : Touches [fill] m
      (store (store (store m (fill + 8) new) (fill + 12) de) (fill + 16) x.allocend) :=
    ((touches_store _ _ (by simp) (by decide)).trans
      (touches_store _ _ (by simp) (by decide))).trans (touches_store _ _ (by simp) (by decide))
  have hat : AllocInfo.At ⟨fill, new, de, x.allocend⟩
      (store (store (store m (fill + 8) new) (fill + 12) de) (fill + 16) x.allocend) := by
    refine ⟨?_, ?_, by simp⟩
    · rw [store_ne _ _ (by simp), store_ne _ _ (by simp), store_same]
    · rw [store_ne _ _ (by simp), store_same]
  have h1 := h.frame t1 fun a ha t ht => by
    rw [List.mem_singleton.mp ht]
    exact (hf a ha).symm
  have h2 := h1.setAllocend hsx new
  have hat2 : AllocInfo.At ⟨fill, new, de, x.allocend⟩
      (store (store (store (store m (fill + 8) new) (fill + 12) de) (fill + 16) x.allocend)
        (x.addr + 16) new) := by
    have := hf x.addr (by simp)
    simp only [Apart, infoSize] at this
    refine hat.frame fun i h8 hi => ?_
    simp only [infoSize] at hi
    exact store_ne _ _ (by show fill + i ≠ _; omega)
  have hp := h2.chain
  rw [addrs_append, addrs_cons] at hp
  rw [hlistAddBefore, hp.pprev]
  refine ⟨h2.add hat2 h0 (by simpa [Separate] using hs), ?_⟩
  refine Touches.trans ((t1.mono (by simp)).trans ?_) (by simpa using h2.touches_add fill)
  exact touches_store _ _ (by simp) (by decide)

theorem ListAt.free (h : ListAt m loc (A ++ n :: x :: B)) (hx : x.allocend = n.data)
    (hs : Separate loc (addrs (A ++ n :: x :: B))) :
    ListAt (freeSpace m n.addr) loc (A ++ { x with allocend := n.allocend } :: B) ∧
      Touches (loc :: addrs (A ++ n :: x :: B)) m (freeSpace m n.addr) := by
  have hc := h.chain
  rw [addrs_append, addrs_cons] at hc
  have hnext : m n.addr = x.addr := by simpa using hc.next_of
  have hx0 : x.addr ≠ 0 := h.chain.ne_zero (by simp)
  have hn := h.infos n (by simp)
  have hxa := h.infos x (by simp)
  have hm : freeSpace m n.addr = hlistDel (store m (x.addr + 16) n.allocend) n.addr := by
    simp only [freeSpace, hnext, hxa.allocend, hn.data, hn.allocend]
    rw [if_pos ⟨hx0, hx⟩]
  have hsx : Separate loc (addrs ((A ++ [n]) ++ x :: B)) := by simpa using hs
  have h1 : ListAt (store m (x.addr + 16) n.allocend) loc
      (A ++ n :: { x with allocend := n.allocend } :: B) := by
    have := ListAt.setAllocend (A := A ++ [n]) (by simpa using h) hsx n.allocend
    simpa using this
  have hs1 : Separate loc (addrs (A ++ n :: { x with allocend := n.allocend } :: B)) := by
    simpa using hs
  rw [hm]
  refine ⟨h1.del hs1, Touches.trans ?_ (by simpa using h1.touches_del)⟩
  exact touches_store _ _ (t := x.addr) (by simp) (by decide)

end Updates

theorem ListAt.find {A B : List AllocInfo} (h : ListAt m loc (A ++ B))
    (hA : ∀ n ∈ A, p n.addr = false) (hB : ∀ n ∈ B.head?, p n.addr = true)
    (hf : A.length < fuel) : hlistFind m p fuel loc = some (lastLoc loc (addrs A)) := by
  have hc : Chain m loc (addrs A ++ addrs B) := by simpa using h.chain
  refine hc.find ?_ ?_ (by simpa [addrs] using hf)
  · intro a ha
    obtain ⟨n, hn, rfl⟩ := mem_addrs.mp ha
    exact hA n hn
  · cases B with
    | nil => simp
    | cons n B => simpa using hB

end ItxLlama.Seabios
