import ItxLlama.Libpayload.HeapObjects

/-!
# The regions of libpayload's heap

Elements are taken where their bytes are 0 and given back by the object's run
of bytes, so the objects of a region stay apart, and a region's own bytes stay
within its block.
-/

namespace ItxLlama.Libpayload

open Lib.Bytes
open Lib.FirstFit
open Lib.Signed
open Lib.Word

variable {heap : Heap} {m m' : Mem} {regs regs' : List Region} {objs : List Obj} {als : List AObj}
  {bs bs' : List Block} {b c : Block} {r r' : Region} {o : Obj} {a a' : AObj}
  {align size len ptr start t x i n count fuel : Nat}

-- ---------------------------------------------------------------------------
-- Runs of bytes
-- ---------------------------------------------------------------------------

theorem clearRun_eq (hrun : ∀ j < n, m (ptr + j) = 2) (hlast : m (ptr + n) ≠ 2) (hfuel : n < fuel) :
    ∃ m', clearRun fuel m ptr = some (m', n + 1) ∧
      ∀ x, m' x = if ptr ≤ x ∧ x < ptr + (n + 1) then 0 else m x := by
  induction n generalizing m ptr fuel with
  | zero =>
    match fuel, hfuel with
    | fuel + 1, _ =>
      refine ⟨Function.update m ptr 0, if_neg hlast, fun x => ?_⟩
      rw [Function.update_apply]
      by_cases hx : x = ptr
      · rw [if_pos hx, if_pos (by omega)]
      · rw [if_neg hx, if_neg (by omega)]
  | succ n ih =>
    match fuel, hfuel with
    | fuel + 1, hfuel =>
      have hother (j : Nat) : Function.update m ptr 0 (ptr + 1 + j) = m (ptr + (j + 1)) := by
        rw [Function.update_of_ne (by omega), Nat.add_assoc, Nat.add_comm 1 j]
      obtain ⟨m', heq, hm'⟩ := @ih (Function.update m ptr 0) (ptr + 1) fuel
        (fun j hj => by rw [hother]; exact hrun (j + 1) (by omega))
        (by rw [hother]; exact hlast) (by omega)
      refine ⟨m', ?_, fun x => ?_⟩
      · rw [clearRun, if_pos (by simpa using hrun 0 (by omega)), heq]
        rfl
      · rw [hm', Function.update_apply]
        by_cases hx : x = ptr
        · rw [if_neg (by omega), if_pos hx, if_pos (by omega)]
        · rw [if_neg hx]
          by_cases hin : ptr + 1 ≤ x ∧ x < ptr + 1 + (n + 1)
          · rw [if_pos hin, if_pos (by omega)]
          · rw [if_neg hin, if_neg (by omega)]

theorem markRun_apply (m : Mem) (ptr n x : Nat) :
    markRun m ptr n x = if ptr ≤ x ∧ x < ptr + n then 2 else m x := by
  induction n with
  | zero => rw [if_neg (by omega)]; rfl
  | succ n ih =>
    rw [markRun, Function.update_apply, ih]
    by_cases hx : x = ptr + n
    · rw [if_pos hx, if_pos (by omega)]
    · rw [if_neg hx]
      by_cases hin : ptr ≤ x ∧ x < ptr + n
      · rw [if_pos hin, if_pos (by omega)]
      · rw [if_neg hin, if_neg (by omega)]

theorem scan_some (h : scan m start t n i count = some x) (hcount : count ≤ i) (hlt : count < t)
    (hzero : ∀ j, i - count ≤ j → j < i → m (start + j) = 0) :
    x + t ≤ i + n ∧ ∀ j, x ≤ j → j < x + t → m (start + j) = 0 := by
  induction n generalizing i count with
  | zero => cases h
  | succ n ih =>
    unfold scan at h
    split at h
    · rename_i hbyte
      have hzero' : ∀ j, i + 1 - (count + 1) ≤ j → j < i + 1 → m (start + j) = 0 := by
        intro j hlo hhi
        by_cases hj : j = i
        · rwa [hj]
        · exact hzero j (by omega) (by omega)
      split at h
      · cases h
        exact ⟨by omega, fun j hlo hhi => hzero' j hlo (by omega)⟩
      · have := ih h (by omega) (by omega) hzero'
        exact ⟨by omega, this.2⟩
    · have := ih h (by omega) (by omega) (fun j hlo hhi => absurd hhi (by omega))
      exact ⟨by omega, this.2⟩

theorem target_eq (hwrap : size + align ≤ 2 ^ 32) :
    target align size = (size + align - 1) / align := by
  rw [target, u32_eq (by omega)]

theorem target_spec (halign : 0 < align) (hwrap : size + align ≤ 2 ^ 32) (hsize : 0 < size) :
    0 < target align size ∧ size ≤ align * target align size := by
  rw [target_eq hwrap]
  have hdiv := Nat.div_add_mod (size + align - 1) align
  have hmod := Nat.mod_lt (size + align - 1) halign
  refine ⟨Nat.div_pos (by omega) halign, by omega⟩

-- ---------------------------------------------------------------------------
-- Objects of one region
-- ---------------------------------------------------------------------------

theorem InRegion.range (h : InRegion m r a i) (hr : r.Cut bs) :
    r.startData ≤ a.addr ∧ a.addr + a.align * a.count ≤ r.startData + r.size := by
  have hle : r.alignment * (i + a.count) ≤ r.alignment * r.num := Nat.mul_le_mul_left _ h.fits
  rw [Nat.mul_add] at hle
  rw [h.addr_eq, hr.size_eq, Nat.mul_comm r.num, ← h.align_eq]
  omega

theorem InRegion.apart (h : InRegion m r a i) (h' : InRegion m r a' x) (hapart : a.Apart a') :
    i + a.count ≤ x ∨ x + a'.count ≤ i := by
  have hle {j k : Nat} (h : r.startData + r.alignment * j ≤ r.startData + r.alignment * k)
      (hpos : 0 < r.alignment) : j ≤ k :=
    Nat.le_of_mul_le_mul_left (by omega) hpos
  have hpos : 0 < r.alignment := by
    refine Nat.pos_of_ne_zero fun hzero => ?_
    have hfits := h.fits
    have := h.pos
    rw [Region.num, hzero, Nat.div_zero] at hfits
    omega
  unfold AObj.Apart at hapart
  rw [h.addr_eq, h'.addr_eq, ← h.align_eq, ← h'.align_eq, Nat.add_assoc, Nat.add_assoc,
    ← Nat.mul_add,
    ← Nat.mul_add] at hapart
  exact hapart.imp (hle · hpos) (hle · hpos)

theorem Region.Cut.align_pos (hr : r.Cut bs) : 0 < r.alignment := by
  obtain ⟨k, hk⟩ := hr.pow
  rw [hk]
  exact Nat.two_pow_pos k

theorem Inv.region_inj (h : Inv heap m regs objs als bs) (hr : r ∈ regs) (hr' : r' ∈ regs)
    (hcut : r.Cut bs) (hcut' : r'.Cut bs) (heq : r.start = r'.start) : r = r' := by
  by_contra hne
  have hnodup := (List.nodup_append.mp h.nodup).2.1
  have hdisj := (List.nodup_flatMap.mp hnodup).2
  have hsymm : Std.Symm (Function.onFun List.Disjoint Region.blocks) :=
    ⟨fun _ _ hd _ hx hx' => hd hx' hx⟩
  have hmem (r : Region) (hr : r.Cut bs) : r.start ∈ r.blocks := by
    have hpos := hr.align_pos
    simp [Region.blocks, Nat.ne_of_gt hpos]
  exact hdisj.forall hr hr' hne (hmem r hcut) (heq ▸ hmem r' hcut')

theorem Inv.region_apart (h : Inv heap m regs objs als bs) (hr : r ∈ regs) (hr' : r' ∈ regs)
    (hcut : r.Cut bs) (hcut' : r'.Cut bs) (hne : r ≠ r') :
    r.startData + r.size ≤ r'.start ∨ r'.startData + r'.size ≤ r.start := by
  obtain ⟨b, hb, hstart, hfin⟩ := hcut.block
  obtain ⟨c, hc, hstart', hfin'⟩ := hcut'.block
  have hbc : b ≠ c := by
    rintro rfl
    exact hne (h.region_inj hr hr' hcut hcut' (hstart.symm.trans hstart'))
  have hapart := cut_apart h.holds.wf.cut (mem_used.mp hb).1 (mem_used.mp hc).1 hbc
  simp only [hdrSize] at *
  omega

theorem geometry_free (r : Region) (n : Nat) : { r with free := n }.geometry = r.geometry := rfl

theorem inRegion_geometry : InRegion m r.geometry a i ↔ InRegion m r a i :=
  ⟨fun h => ⟨h.align_eq, h.addr_eq, h.pos, h.large, h.fits, h.run, h.last⟩,
    fun h => ⟨h.align_eq, h.addr_eq, h.pos, h.large, h.fits, h.run, h.last⟩⟩

theorem placed_geometry : r.geometry.Placed bs ↔ r.Placed bs :=
  or_congr .rfl ⟨fun h => ⟨h.pow, h.dvd, h.size_eq, h.bytes, h.block⟩,
    fun h => ⟨h.pow, h.dvd, h.size_eq, h.bytes, h.block⟩⟩

theorem Inv.congr (h : Inv heap m regs objs als bs)
    (hregs : regs'.map Region.geometry = regs.map Region.geometry) :
    Inv heap m regs' objs als bs := by
  have hmem (r' : Region) (hr' : r' ∈ regs') : ∃ r ∈ regs, r.geometry = r'.geometry := by
    have : r'.geometry ∈ regs.map Region.geometry := hregs ▸ List.mem_map_of_mem hr'
    exact List.mem_map.mp this
  have hmem' (r : Region) (hr : r ∈ regs) : ∃ r' ∈ regs', r'.geometry = r.geometry := by
    have : r.geometry ∈ regs'.map Region.geometry := hregs ▸ List.mem_map_of_mem hr
    exact List.mem_map.mp this
  have hflat (l : List Region) :
    l.flatMap Region.blocks = (l.map Region.geometry).flatMap Region.blocks := by
    rw [List.flatMap_map]
    rfl
  refine { h with owned := ?_, placed := fun r' hr' => ?_, inRegion := fun a ha => ?_ }
  · rw [hflat, hregs, ← hflat]
    exact h.owned
  · obtain ⟨r, hr, heq⟩ := hmem r' hr'
    rw [← placed_geometry, ← heq, placed_geometry]
    exact h.placed r hr
  · obtain ⟨r, hr, i, hin⟩ := h.inRegion a ha
    obtain ⟨r', hr', heq⟩ := hmem' r hr
    rw [← inRegion_geometry, ← heq, inRegion_geometry] at hin
    exact ⟨r', hr', i, hin⟩

theorem Holds.inside (h : Holds heap (ready heap m) bs) (hb : b ∈ used bs)
    (hout : ∀ x, x < b.addr + hdrSize ∨ b.fin hdrSize ≤ x → m' x = m x) :
    Holds heap (ready heap m') bs := by
  rw [h.started hb] at h
  have h' : Holds heap m' bs := by
    refine ⟨h.wf, Headers.frame h.headers fun c hc x hlo hhi => hout x ?_⟩
    by_cases heq : c = b
    · subst heq
      exact .inl hhi
    · have hapart := cut_apart h.wf.cut hc (mem_used.mp hb).1 heq
      simp only [Block.fin, hdrSize] at *
      omega
  rwa [h'.ready_eq]

theorem Inv.bytes (h : Inv heap m regs objs als bs) (hcut : r.Cut bs)
    (hout : ∀ x, x < r.start ∨ r.start + r.num ≤ x → m' x = m x) :
    Holds heap (ready heap m') bs := by
  obtain ⟨b, hb, hstart, hfin⟩ := hcut.block
  have hbytes := hcut.bytes
  exact h.holds.inside hb fun x hx => hout x (by omega)

theorem Inv.other_bytes (h : Inv heap m regs objs als bs) (hr : r ∈ regs) (hr' : r' ∈ regs)
    (hcut : r.Cut bs) (hcut' : r'.Cut bs) (hne : r' ≠ r)
    (hout : ∀ x, x < r.start ∨ r.start + r.num ≤ x → m' x = m x) (hlo : r'.start ≤ x)
    (hhi : x < r'.start + r'.num) : m' x = m x := by
  have hapart := h.region_apart hr' hr hcut' hcut hne
  have := hcut.bytes
  have := hcut'.bytes
  exact hout x (by omega)

-- ---------------------------------------------------------------------------
-- Taking elements
-- ---------------------------------------------------------------------------

/-- The memory where `t` elements from the byte `ptr` on are taken. -/
structure Marked (m m' : Mem) (ptr t : Nat) : Prop where
  run : ∀ j < t - 1, m' (ptr + j) = 2
  last : m' (ptr + (t - 1)) = 1
  other : ∀ x, x < ptr ∨ ptr + t ≤ x → m' x = m x

theorem takeElements_some (h : takeElements m align size r = some (m', r', ptr)) :
    r'.geometry = r.geometry ∧ ∃ i,
      scan m r.start (target align size) (r.size / align) 0 0 = some i ∧
      (0 < target align size → Marked m m' (r.start + i) (target align size)) ∧
      ptr = u32 (r.startData + align * i) := by
  unfold takeElements at h
  obtain ⟨i, hscan, heq⟩ := Option.bind_eq_some_iff.mp h
  simp only [Option.some.injEq, Prod.mk.injEq] at heq
  obtain ⟨rfl, rfl, rfl⟩ := heq
  refine ⟨geometry_free _ _, i, hscan, fun hpos => ?_, rfl⟩
  constructor
  case run =>
    intro j hj
    rw [Function.update_of_ne (by omega), markRun_apply, if_pos (by omega)]
  case last => exact Function.update_self ..
  case other =>
    intro x hx
    rw [Function.update_of_ne (by omega), markRun_apply, if_neg (by omega)]

theorem Inv.take (h : Inv heap m regs objs als bs) (hr : r ∈ regs) (halign : r.alignment = align)
    (hpos : 0 < align) (hsize : 0 < size) (hwrap : size + align ≤ 2 ^ 32)
    (ht : takeElements m align size r = some (m', r', ptr)) :
    Inv heap m' regs objs (⟨ptr, size, align⟩ :: als) bs ∧ r.Cut bs ∧
      ∀ x, x < r.start ∨ r.start + r.num ≤ x → m' x = m x := by
  obtain ⟨-, i, hscan, hmarked, hptr⟩ := takeElements_some ht
  obtain ⟨htpos, htsize⟩ := target_spec hpos hwrap hsize
  have hcut : r.Cut bs := by
    rcases h.placed r hr with ⟨hzero, -⟩ | hcut
    · omega
    · exact hcut
  have hnum : r.size / align = r.num := by rw [Region.num, halign]
  rw [hnum] at hscan
  obtain ⟨hfits, hfree⟩ :=
    scan_some hscan (Nat.le_refl _) htpos fun j hlo hhi => absurd hhi (by omega)
  obtain ⟨hrun, hlast, hother⟩ := hmarked htpos
  have hout : ∀ x, x < r.start ∨ r.start + r.num ≤ x → m' x = m x := fun x hx => hother x (by omega)
  -- the address does not wrap
  have haddr : ptr = r.startData + align * i := by
    obtain ⟨b, hb, -, hfin⟩ := hcut.block
    have hin := h.holds.bounds (mem_used.mp hb).1
    have hend := heap.hend_lt
    have hle : align * i ≤ align * r.num := Nat.mul_le_mul_left _ (by omega)
    have hsize := hcut.size_eq
    rw [halign, Nat.mul_comm] at hsize
    rw [hptr, u32_eq (by omega)]
  have hnew : InRegion m' r ⟨ptr, size, align⟩ i :=
    ⟨halign, by rw [haddr, halign], htpos, htsize, by simpa [AObj.count] using hfits, hrun, hlast⟩
  -- what was there before has other elements
  have hold (a : AObj) (ha : a ∈ als) (r₂ : Region) (hr₂ : r₂ ∈ regs) (k : Nat)
      (hin : InRegion m r₂ a k) : InRegion m' r₂ a k ∧ AObj.Apart ⟨ptr, size, align⟩ a := by
    have hcut₂ := hin.cut (h.placed r₂ hr₂)
    by_cases heq : r₂ = r
    · subst heq
      have hk := hin.pos
      have hkfits := hin.fits
      have hbyte (j : Nat) (hj : j < a.count) : m (r₂.start + (k + j)) ≠ 0 := by
        rw [← Nat.add_assoc]
        by_cases hlast : j = a.count - 1
        · rw [hlast, hin.last]
          decide
        · rw [hin.run j (by omega)]
          decide
      have hapart : i + target align size ≤ k ∨ k + a.count ≤ i := by
        by_contra hover
        by_cases hle : i ≤ k
        · exact hbyte 0 hk (hfree k hle (by omega))
        · exact hbyte (i - k) (by omega) (by
            rw [Nat.add_sub_cancel' (by omega)]
            exact hfree i (Nat.le_refl _) (by omega))
      refine ⟨?_, ?_⟩
      · refine { hin with run := fun j hj => ?_, last := ?_ }
        · rw [hother _ (by omega)]
          exact hin.run j hj
        · rw [hother _ (by omega)]
          exact hin.last
      · unfold AObj.Apart
        have hmul {j l : Nat} (hle : j ≤ l) : align * j ≤ align * l := Nat.mul_le_mul_left _ hle
        rw [haddr, hin.addr_eq, ← hin.align_eq, halign]
        refine hapart.imp (fun hle => ?_) fun hle => ?_
        · have := hmul hle
          rw [Nat.mul_add] at this
          simp only [AObj.count]
          omega
        · have := hmul hle
          rw [Nat.mul_add] at this
          simp only
          omega
    · refine ⟨hin.frame fun x hlo hhi => h.other_bytes hr hr₂ hcut hcut₂ heq hout hlo hhi, ?_⟩
      have hrange := hin.range hcut₂
      have hrange' := hnew.range hcut
      have hbytes := hcut.bytes
      have hbytes' := hcut₂.bytes
      have hapart := h.region_apart hr hr₂ hcut hcut₂ (Ne.symm heq)
      unfold AObj.Apart
      omega
  refine ⟨?_, hcut, hout⟩
  constructor
  case holds => exact h.bytes hcut hout
  case owned => exact h.owned
  case large => exact h.large
  case placed => exact h.placed
  case inRegion =>
    refine List.forall_mem_cons.mpr ⟨⟨r, hr, i, hnew⟩, fun a ha => ?_⟩
    obtain ⟨r₂, hr₂, k, hin⟩ := h.inRegion a ha
    exact ⟨r₂, hr₂, k, (hold a ha r₂ hr₂ k hin).1⟩
  case apart =>
    refine List.pairwise_cons.mpr ⟨fun a ha => ?_, h.apart⟩
    obtain ⟨r₂, hr₂, k, hin⟩ := h.inRegion a ha
    exact (hold a ha r₂ hr₂ k hin).2

theorem serve_some (h : serve m align size regs = some (m', regs', ptr)) :
    ∃ r ∈ regs, ∃ r', r.alignment = align ∧ takeElements m align size r = some (m', r', ptr) ∧
      regs'.map Region.geometry = regs.map Region.geometry := by
  induction regs generalizing regs' with
  | nil => cases h
  | cons r regs ih =>
    rw [serve] at h
    split at h
    · rename_i m₁ r₁ p hfound
      cases h
      split at hfound
      · rename_i hmatch
        refine ⟨r, List.mem_cons_self, r₁, hmatch.1, hfound, ?_⟩
        rw [List.map_cons, List.map_cons, (takeElements_some hfound).1]
      · cases hfound
    · obtain ⟨⟨m₁, regs₁, p⟩, hserve, heq⟩ := Option.map_eq_some_iff.mp h
      cases heq
      obtain ⟨r₁, hr₁, r', halign, ht, hgeo⟩ := ih hserve
      exact ⟨r₁, List.mem_cons_of_mem _ hr₁, r', halign, ht, by
        rw [List.map_cons, List.map_cons, hgeo]⟩

-- ---------------------------------------------------------------------------
-- Giving elements back
-- ---------------------------------------------------------------------------

theorem freeAligned_found (hr : r ∈ regs)
    (hin : r.startData ≤ ptr ∧ ptr < u32 (r.startData + r.size))
    (huniq : ∀ r' ∈ regs, r'.startData ≤ ptr ∧ ptr < u32 (r'.startData + r'.size) → r' = r)
    (hclear : clearRun r.size m (r.start + (ptr - r.startData) / r.alignment) = some (m', n)) :
    ∃ regs', freeAligned m ptr regs = some (m', regs', true) ∧
      regs'.map Region.geometry = regs.map Region.geometry := by
  induction regs with
  | nil => cases hr
  | cons r₁ regs ih =>
    rw [freeAligned]
    split
    · rename_i hin₁
      obtain rfl := huniq r₁ List.mem_cons_self hin₁
      refine ⟨{ r₁ with free := u32 (r₁.free + n) } :: regs, ?_, ?_⟩
      · dsimp only
        rw [hclear]
        rfl
      rw [List.map_cons, List.map_cons, geometry_free]
    · rename_i hout
      rcases List.mem_cons.mp hr with rfl | hr
      · exact absurd hin hout
      · obtain ⟨regs', heq, hgeo⟩ := ih hr fun r' hr' => huniq r' (List.mem_cons_of_mem _ hr')
        refine ⟨r₁ :: regs', by rw [heq]; rfl, ?_⟩
        rw [List.map_cons, List.map_cons, hgeo]

theorem Inv.free_aligned (h : Inv heap m regs objs als bs) (ha : a ∈ als) :
    ∃ m' regs', Libpayload.free heap ⟨m, regs⟩ a.addr = some ⟨m', regs'⟩ ∧
      Inv heap m' regs' objs (als.erase a) bs ∧
      ∃ r ∈ regs, r.Cut bs ∧ ∀ x, x < r.start ∨ r.start + r.num ≤ x → m' x = m x := by
  obtain ⟨r, hr, i, hin⟩ := h.inRegion a ha
  have hcut := hin.cut (h.placed r hr)
  have hpos := hin.pos
  have hfits := hin.fits
  have halign := hcut.align_pos
  obtain ⟨hlo, hhi⟩ := hin.range hcut
  have hone : 0 < a.align * a.count := Nat.mul_pos (hin.align_eq ▸ halign) hpos
  have hidx : (a.addr - r.startData) / r.alignment = i := by
    rw [hin.addr_eq, Nat.add_sub_cancel_left, Nat.mul_div_cancel_left _ halign]
  have hnum : r.num ≤ r.size := by
    rw [hcut.size_eq]
    exact Nat.le_mul_of_pos_right _ halign
  obtain ⟨m', hclear, hm'⟩ := @clearRun_eq m (r.start + i) (a.count - 1) r.size hin.run
    (by rw [hin.last]; decide) (by omega)
  rw [Nat.sub_add_cancel hpos] at hm'
  have hother : ∀ x, x < r.start + i ∨ r.start + i + a.count ≤ x → m' x = m x := fun x hx => by
    rw [hm', if_neg (by omega)]
  have hout : ∀ x, x < r.start ∨ r.start + r.num ≤ x → m' x = m x := fun x hx => hother x (by omega)
  obtain ⟨regs', hfree, hgeo⟩ := freeAligned_found hr
    ⟨hlo, by rw [h.region_end hcut]; omega⟩ (fun r' hr' hin' => by
      by_contra hne
      rcases h.placed r' hr' with ⟨-, hsize⟩ | hcut'
      · rw [hsize, Nat.add_zero] at hin'
        have : u32 r'.startData ≤ r'.startData := Nat.mod_le _ _
        omega
      · rw [h.region_end hcut'] at hin'
        have hbytes := hcut.bytes
        have hbytes' := hcut'.bytes
        have hapart := h.region_apart hr hr' hcut hcut' (Ne.symm hne)
        omega) (hidx.symm ▸ hclear)
  refine ⟨m', regs', ?_, ?_, r, hr, hcut, hout⟩
  · simp only [Libpayload.free, hfree, Option.bind_eq_bind, Option.bind_some, if_true]
  refine Inv.congr ?_ hgeo
  have hperm := List.perm_cons_erase ha
  have hsymm : ∀ {x y : AObj}, x.Apart y → y.Apart x := Or.symm
  have hapart := (hperm.pairwise_iff hsymm).mp h.apart
  obtain ⟨hfrom, hrest⟩ := List.pairwise_cons.mp hapart
  constructor
  case holds => exact h.bytes hcut hout
  case owned => exact h.owned
  case large => exact h.large
  case placed => exact h.placed
  case inRegion =>
    intro a' ha'
    obtain ⟨r', hr', k, hin'⟩ := h.inRegion a' (List.mem_of_mem_erase ha')
    have hcut' := hin'.cut (h.placed r' hr')
    by_cases heq : r' = r
    · subst heq
      have hdisj := hin.apart hin' (hfrom a' ha')
      have hpos' := hin'.pos
      refine ⟨r', hr', k, { hin' with run := fun j hj => ?_, last := ?_ }⟩
      · rw [hother _ (by omega)]
        exact hin'.run j hj
      · rw [hother _ (by omega)]
        exact hin'.last
    · exact ⟨r', hr', k, hin'.frame fun x hlo hhi =>
        h.other_bytes hr hr' hcut hcut' heq hout hlo hhi⟩
  case apart => exact hrest

-- ---------------------------------------------------------------------------
-- New regions
-- ---------------------------------------------------------------------------

theorem alloc_total (h : Holds heap (ready heap m) bs) (len : Nat) :
    ∃ r, alloc heap m len = some r :=
  ⟨_, alloc_eq h len⟩

theorem Inv.dummy (h : Inv heap m [] (o :: objs) als bs) :
    Inv heap m [⟨o.addr, 0, 0, 0, 0, 0⟩] objs als bs where
  holds := h.holds
  owned := by
    have howned := h.owned
    simp only [List.map_cons, List.flatMap_nil, List.append_nil] at howned
    refine howned.trans ?_
    simpa [Region.blocks] using @List.perm_append_comm _ [o.addr] (objs.map Obj.addr)
  large := fun o' ho' => h.large o' (List.mem_cons_of_mem _ ho')
  placed := fun r hr => by
    cases List.mem_singleton.mp hr
    exact .inl ⟨rfl, rfl⟩
  inRegion := fun a ha => by
    obtain ⟨r, hr, -⟩ := h.inRegion a ha
    cases hr
  apart := h.apart

theorem Inv.adopt {rec spc : Obj} (h : Inv heap m regs (spc :: rec :: objs) als bs)
    (haddr : r.addr = rec.addr) (hstart : r.start = spc.addr) (hpow : ∃ k, r.alignment = 2 ^ k)
    (hdvd : r.alignment ∣ r.startData) (hsize : r.size = r.num * r.alignment)
    (hbytes : r.start + r.num ≤ r.startData) (hfin : r.startData + r.size ≤ spc.addr + spc.len)
    (hout : ∀ x, x < r.start ∨ r.start + r.num ≤ x → m' x = m x) :
    Inv heap m' (r :: regs) objs als bs := by
  obtain ⟨b, hb, hbaddr, hblen⟩ := h.large spc List.mem_cons_self
  have hbfin : spc.addr + spc.len ≤ b.fin hdrSize := by
    simp only [Block.fin]
    omega
  have hne : r.alignment ≠ 0 := by
    obtain ⟨k, hk⟩ := hpow
    rw [hk]
    exact Nat.ne_of_gt (Nat.two_pow_pos k)
  constructor
  case holds =>
    exact h.holds.inside hb fun x hx => hout x (by omega)
  case owned =>
    refine h.owned.trans ?_
    simp only [List.map_cons, List.flatMap_cons, Region.blocks, if_neg hne, haddr, hstart]
    refine (List.Perm.swap _ _ _).trans ?_
    simpa using (@List.perm_append_comm _ [rec.addr, spc.addr] (objs.map Obj.addr)).append_right
      (regs.flatMap Region.blocks)
  case large =>
    exact fun o ho => h.large o (List.mem_cons_of_mem _ (List.mem_cons_of_mem _ ho))
  case placed =>
    refine List.forall_mem_cons.mpr ⟨.inr ⟨hpow, hdvd, hsize, hbytes, b, hb, ?_, by omega⟩, h.placed⟩
    rw [hbaddr, hstart]
  case inRegion =>
    intro a ha
    obtain ⟨r', hr', i, hin⟩ := h.inRegion a ha
    have hcut' := hin.cut (h.placed r' hr')
    refine ⟨r', List.mem_cons_of_mem _ hr', i, hin.frame fun x hlo hhi => hout x ?_⟩
    obtain ⟨c, hc, hcstart, hcfin⟩ := hcut'.block
    have hcbytes := hcut'.bytes
    have hbc : c ≠ b := by
      rintro rfl
      refine h.obj_ne_region List.mem_cons_self hr' ?_ (hbaddr.symm.trans hcstart)
      simp [Region.blocks, Nat.ne_of_gt hcut'.align_pos]
    have hapart := cut_apart h.holds.wf.cut (mem_used.mp hc).1 (mem_used.mp hb).1 hbc
    simp only [hdrSize] at *
    omega
  case apart => exact h.apart

theorem Inv.allocateRegion (h : Inv heap m regs objs als bs) (hpow : ∃ k, align = 2 ^ k)
    (hwrap : (n + 1) * align + n < 2 ^ 32) :
    ∃ s' res, Libpayload.allocateRegion heap ⟨m, regs⟩ align n = some (s', res) ∧ ∃ bs',
      Inv heap s'.mem s'.regions objs als bs' ∧ (res = none ∧ s'.regions = regs ∨
        ∃ r, res = some r ∧ s'.regions = r :: regs ∧ r.alignment = align ∧ r.num = n ∧
          ∀ j < n, s'.mem (r.start + j) = 0) := by
  have halign : 0 < align := by
    obtain ⟨k, rfl⟩ := hpow
    exact Nat.two_pow_pos k
  obtain ⟨⟨m₁, rec⟩, hrec⟩ := alloc_total h.holds sizeofRegion
  unfold Libpayload.allocateRegion
  simp only [malloc, hrec, Option.bind_eq_bind, Option.bind_some]
  cases rec with
  | none => exact ⟨_, _, rfl, bs, (h.alloc_none hrec).1, .inl ⟨rfl, rfl⟩⟩
  | some addr =>
    obtain ⟨bs₁, h₁, -⟩ := h.alloc_some (by decide) hrec
    obtain ⟨⟨m₂, spc⟩, hspc⟩ := alloc_total h₁.holds (u32 ((n + 1) * align + n))
    simp only [hspc, Option.bind_some]
    cases spc with
    | none =>
      obtain ⟨h₂, -⟩ := h₁.alloc_none hspc
      obtain ⟨b, hb, haddr, -, m₃, hfree, hholds, hframe⟩ := h₂.free_block List.mem_cons_self
      have hstarted := h₂.holds.started hb
      have hkept := kept_free (hstarted ▸ h₂.holds) hframe
      have h₃ := h₂.free List.mem_cons_self hb haddr hholds hkept
      rw [List.erase_cons_head] at h₃
      simp only at hfree
      rw [hfree]
      exact ⟨_, _, rfl, _, h₃, .inl ⟨rfl, rfl⟩⟩
    | some start =>
      rw [u32_eq hwrap] at hspc
      obtain ⟨bs₂, h₂, -⟩ := h₁.alloc_some hwrap hspc
      obtain ⟨b, hb, hbaddr, hblen⟩ := h₂.large _ List.mem_cons_self
      have hin := h₂.holds.bounds (mem_used.mp hb).1
      have hend := heap.hend_lt
      simp only [Block.fin] at hin hbaddr hblen
      have hmul : (n + 1) * align = n * align + align := Nat.succ_mul n align
      have hsize : u32 (n * align) = n * align := u32_eq (by omega)
      have hnum : n * align / align = n := Nat.mul_div_cancel n halign
      have hup := le_alignUp (start + n) halign
      have hup' := alignUp_lt (start + n) halign
      have hdata : alignDown (u32 (start + n + align - 1)) align = alignUp (start + n) align := by
        rw [u32_eq (by omega), alignUp, Nat.add_sub_assoc halign]
      refine ⟨_, _, rfl, bs₂, ?_, .inr ⟨_, rfl, rfl, rfl, ?_, fun j hj => ?_⟩⟩
      · refine h₂.adopt rfl rfl hpow ?_ ?_ ?_ ?_ fun x hx => ?_
        · exact dvd_alignDown _ _
        · simp only [Region.num, hsize, hnum]
        · simp only [Region.num, hsize, hnum, hdata]
          exact hup
        · simp only [hsize, hdata]
          omega
        · simp only [Region.num, hsize, hnum] at hx
          exact if_neg (by omega)
      · simp only [Region.num, hsize, hnum]
      · exact if_pos (by simp only; omega)

-- ---------------------------------------------------------------------------
-- memalign
-- ---------------------------------------------------------------------------

/-- The size of the region that `memalign` asks for. -/
def regionBytes (align size : Nat) : Nat :=
  (numElements align size + 1) * align + numElements align size

theorem size_le_regionBytes (hpow : ∃ k, align = 2 ^ k) (h : regionBytes align size < 2 ^ 32) :
    size + align ≤ 2 ^ 32 := by
  have halign : 0 < align := by
    obtain ⟨k, rfl⟩ := hpow
    exact Nat.two_pow_pos k
  unfold regionBytes numElements at h
  split at h
  · obtain ⟨k, rfl⟩ := hpow
    have hk : k < 32 := by
      refine (Nat.pow_lt_pow_iff_right (by decide : 1 < 2)).mp (Nat.lt_of_le_of_lt ?_ h)
      generalize 1024 / 2 ^ k = q
      rw [Nat.succ_mul]
      omega
    have hle : 2 ^ k ≤ 2 ^ 31 := Nat.pow_le_pow_right Nat.two_pos (by omega)
    omega
  · have hdiv := Nat.div_add_mod (size - 1) align
    have hmod := Nat.mod_lt (size - 1) halign
    generalize (size - 1) / align = q at h hdiv
    have hmul : (q + 1 + 1) * align = align * q + align + align := by
      rw [Nat.mul_comm, Nat.mul_succ, Nat.mul_succ]
    omega

/-- The objects after a call of `memalign`. -/
def withObject (align size : Nat) (res : Option Nat) (als : List AObj) : List AObj :=
  res.elim als fun p => ⟨p, size, align⟩ :: als

section Memalign

variable {s' : State} {res : Option Nat}

theorem Inv.serve (h : Inv heap m regs objs als bs) (hpos : 0 < align) (hsize : 0 < size)
    (hwrap : size + align ≤ 2 ^ 32) (pre : List Region) {regs₁ : List Region}
    (hregs : regs = pre ++ regs₁)
    (hs : serve m align size regs₁ = some (m', regs', ptr)) :
    Inv heap m' (pre ++ regs') objs (⟨ptr, size, align⟩ :: als) bs := by
  obtain ⟨r, hr, r', halign, ht, hgeo⟩ := serve_some hs
  have hmem : r ∈ regs := hregs ▸ List.mem_append_right _ hr
  refine ((h.take hmem halign hpos hsize hwrap ht).1).congr ?_
  rw [hregs, List.map_append, List.map_append, hgeo]

theorem Inv.memalignLoop (h : Inv heap m regs objs als bs) (hpow : ∃ k, align = 2 ^ k)
    (hsize : 0 < size) (hwrap : regionBytes align size < 2 ^ 32)
    (hm : Libpayload.memalignLoop heap align size fuel ⟨m, regs⟩ = some (s', res)) :
    ∃ bs', Inv heap s'.mem s'.regions objs (withObject align size res als) bs' := by
  have halign : 0 < align := by
    obtain ⟨k, rfl⟩ := hpow
    exact Nat.two_pow_pos k
  have hfits := size_le_regionBytes hpow hwrap
  induction fuel generalizing m regs bs with
  | zero => cases hm
  | succ fuel ih =>
    obtain ⟨⟨m₁, regs₁⟩, reg, halloc, bs₁, h₁, hres⟩ := h.allocateRegion hpow hwrap
    rw [Libpayload.memalignLoop, halloc, Option.bind_eq_bind, Option.bind_some] at hm
    rcases hres with ⟨rfl, rfl⟩ | ⟨r, rfl, rfl, hralign, -, -⟩
    · cases hm
      exact ⟨bs₁, h₁⟩
    dsimp only at hm h₁
    split at hm
    · rename_i m₂ r' p ht
      cases hm
      have h₂ := (h₁.take List.mem_cons_self hralign halign hsize hfits ht).1
      refine ⟨bs₁, h₂.congr ?_⟩
      rw [List.map_cons, List.map_cons, (takeElements_some ht).1]
    · split at hm
      · rename_i m₂ regs' p hs
        cases hm
        exact ⟨bs₁, h₁.serve halign hsize hfits [r] rfl hs⟩
      · exact ih h₁ hm

theorem Inv.lookFurther (h : Inv heap m regs objs als bs) (hpow : ∃ k, align = 2 ^ k)
    (hsize : 0 < size) (hwrap : regionBytes align size < 2 ^ 32)
    (hm : Libpayload.lookFurther heap align size fuel ⟨m, regs⟩ = some (s', res)) :
    ∃ bs', Inv heap s'.mem s'.regions objs (withObject align size res als) bs' := by
  have halign : 0 < align := by
    obtain ⟨k, rfl⟩ := hpow
    exact Nat.two_pow_pos k
  unfold Libpayload.lookFurther at hm
  split at hm
  · rename_i hs
    cases hm
    exact ⟨bs, h.serve halign hsize (size_le_regionBytes hpow hwrap) [] rfl hs⟩
  · exact h.memalignLoop hpow hsize hwrap hm

theorem Inv.initRegions (h : Inv heap m regs objs als bs) {ok : Bool}
    (hm : Libpayload.initRegions heap ⟨m, regs⟩ = some (s', ok)) :
    ∃ bs', Inv heap s'.mem s'.regions objs als bs' := by
  cases regs with
  | nil =>
    obtain ⟨⟨m₁, rec⟩, hrec, hm⟩ := Option.bind_eq_some_iff.mp hm
    cases rec with
    | none =>
      cases hm
      exact ⟨bs, (h.alloc_none hrec).1⟩
    | some addr =>
      cases hm
      obtain ⟨bs₁, h₁, -⟩ := h.alloc_some (by decide) hrec
      exact ⟨bs₁, h₁.dummy⟩
  | cons r regs =>
    cases hm
    exact ⟨bs, h⟩

theorem Inv.memalign (h : Inv heap m regs objs als bs) (hpow : ∃ k, align = 2 ^ k)
    (hwrap : regionBytes align size < 2 ^ 32)
    (hm : Libpayload.memalign heap fuel ⟨m, regs⟩ align size = some (s', res)) :
    ∃ bs', Inv heap s'.mem s'.regions objs (withObject align size res als) bs' := by
  unfold Libpayload.memalign at hm
  split at hm
  · cases hm
    exact ⟨bs, h⟩
  rename_i hzero
  have hsize := Nat.pos_of_ne_zero hzero
  obtain ⟨⟨⟨m₁, regs₁⟩, ok⟩, hinit, hm⟩ := Option.bind_eq_some_iff.mp hm
  obtain ⟨bs₁, h₁⟩ := h.initRegions hinit
  dsimp only at hm
  split at hm
  · exact h₁.lookFurther hpow hsize hwrap hm
  · cases hm
    exact ⟨bs₁, h₁⟩

end Memalign

end ItxLlama.Libpayload
