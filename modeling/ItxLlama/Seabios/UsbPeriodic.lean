import ItxLlama.Lib.Linked
import ItxLlama.Lib.Word
import Mathlib.Data.List.Nodup
import Mathlib.Data.Nat.Log

/-!
# The periodic schedule of OHCI and EHCI

How `ohci_alloc_intr_pipe` and `ehci_alloc_intr_pipe` link a pipe into the
schedule: a pipe with a period of one frame behind the base interrupt queue,
any other one in front of the heads of its frames.
-/

namespace ItxLlama.Seabios.UsbPeriodic

open Lib.Word Lib.Linked

/-- The words of a controller's schedule. -/
structure Layout where
  size : Nat
  maxExp : Nat
  link : Nat → Nat
  addr : Nat → Nat
  target : Nat → Option Nat
  term : Nat
  usable : Nat → Prop

def ehciPtrTerm : Nat := 0x0001
def ehciPtrQh : Nat := 0x0002

/-- The addresses of queue heads leave `EHCI_PTR_BITS` free. -/
def ehciLayout : Layout where
  size := 1024
  maxExp := 10
  link qh := qh ||| ehciPtrQh
  addr w := alignDown w 32
  target w := if w % 2 = ehciPtrTerm then none else some (alignDown w 32)
  term := ehciPtrTerm
  usable qh := 32 ∣ qh

def ohciLayout : Layout where
  size := 32
  maxExp := 5
  link ed := ed
  addr w := w
  target w := if w = 0 then none else some w
  term := 0
  usable ed := ed ≠ 0

/-- The heads of the frames, and the link of every queue head. -/
structure Schedule where
  links : Nat → Nat
  next : Nat → Nat

/-- The schedule with the base interrupt queue only. -/
def configure (c : Layout) (base : Nat) : Schedule :=
  ⟨fun _ => c.link base, Function.update (fun _ => 0) base c.term⟩

structure Endpoint where
  highspeed : Bool
  bInterval : Nat
  deriving DecidableEq, Repr

/-- The interval that an endpoint asks for, in microframes; a frame has eight. -/
def Endpoint.interval (ep : Endpoint) : Nat :=
  if ep.highspeed then 2 ^ (ep.bInterval - 1) else 8 * ep.bInterval

def usbGetFrameExp (ep : Endpoint) : Nat :=
  let period := ep.bInterval
  if !ep.highspeed then if period ≤ 0 then 0 else Nat.log2 period
  else if period ≤ 4 then 0 else period - 4

/-- The exponent that a controller uses. -/
def frameExp (c : Layout) (ep : Endpoint) : Nat :=
  let frameexp := usbGetFrameExp ep
  if frameexp > c.maxExp then c.maxExp else frameexp

/-- The loop that puts a pipe in front of every `ms`-th frame. -/
def linkFrames (size ms word : Nat) : (fuel i : Nat) → (links : Nat → Nat) → Nat → Nat
  | 0, _, links => links
  | fuel + 1, i, links =>
    if i < size then linkFrames size ms word fuel (i + ms) (Function.update links i word) else links

/-- What both functions do once they have their memory. -/
def addToSchedule (c : Layout) (s : Schedule) (frameexp pipe : Nat) : Schedule :=
  let ms := 1 <<< frameexp
  if frameexp = 0 then
    -- add to existing interrupt entry
    let intrQh := c.addr (s.links 0)
    let next := Function.update s.next pipe (s.next intrQh)
    { s with next := Function.update next intrQh (c.link pipe) }
  else
    let startpos := 1 <<< (frameexp - 1)
    { next := Function.update s.next pipe (s.links startpos)
      links := linkFrames c.size ms (c.link pipe) c.size startpos s.links }

/-- `pipe` is the memory, if there is any. -/
def allocIntrPipe (c : Layout) (s : Schedule) (ep : Endpoint) : (pipe : Option Nat) → Schedule
  | none => s
  | some pipe => addToSchedule c s (frameExp c ep) pipe

def ehciAllocIntrPipe := allocIntrPipe ehciLayout

def ohciAllocIntrPipe := allocIntrPipe ohciLayout

inductive Controller where
  | ohci
  | ehci
  deriving DecidableEq, Repr

def Controller.layout : Controller → Layout
  | ohci => ohciLayout
  | ehci => ehciLayout

structure Pipe where
  addr : Nat
  ep : Endpoint
  deriving DecidableEq, Repr

/-- The schedules after any allocations, with the pipes allocated, the latest first. -/
inductive Reachable (c : Layout) (base : Nat) : Schedule → List Pipe → Prop
  | configured : Reachable c base (configure c base) []
  | noMemory (h : Reachable c base s ps) (ep : Endpoint) :
      Reachable c base (allocIntrPipe c s ep none) ps
  | alloc (h : Reachable c base s ps) (ep : Endpoint) (husable : c.usable pipe)
      (hfresh : pipe ∉ base :: ps.map Pipe.addr) :
      Reachable c base (allocIntrPipe c s ep (some pipe)) (⟨pipe, ep⟩ :: ps)

-- ---------------------------------------------------------------------------
-- Layouts
-- ---------------------------------------------------------------------------

structure Layout.Lawful (c : Layout) : Prop where
  size : c.size = 2 ^ c.maxExp
  target_link : ∀ a, c.usable a → c.target (c.link a) = some a
  addr_link : ∀ a, c.usable a → c.addr (c.link a) = a
  target_term : c.target c.term = none

theorem ohciLayout_lawful : ohciLayout.Lawful :=
  ⟨rfl, fun _ ha => if_neg ha, fun _ _ => rfl, rfl⟩

theorem ehciLayout_lawful : ehciLayout.Lawful := by
  have hlink (a : Nat) (ha : 32 ∣ a) : a ||| ehciPtrQh = a + 2 := by
    obtain ⟨k, rfl⟩ := ha
    exact (Nat.two_pow_add_eq_or_of_lt (i := 5) (by decide) k).symm
  have hdown (a : Nat) (ha : 32 ∣ a) : alignDown (a + 2) 32 = a := by
    unfold alignDown
    omega
  refine ⟨rfl, fun a ha => ?_, fun a ha => ?_, rfl⟩
  · have heven : ¬ (a + 2) % 2 = ehciPtrTerm := by
      have ha : 32 ∣ a := ha
      unfold ehciPtrTerm
      omega
    show (if (a ||| ehciPtrQh) % 2 = ehciPtrTerm then none else some (alignDown (a ||| ehciPtrQh) 32)) = _
    rw [hlink a ha, if_neg heven, hdown a ha]
  · show alignDown (a ||| ehciPtrQh) 32 = a
    rw [hlink a ha, hdown a ha]

-- ---------------------------------------------------------------------------
-- Frames
-- ---------------------------------------------------------------------------

/-- The frames that a pipe with a longer period than one frame is in. -/
def InFrame (e f : Nat) : Prop := e ≠ 0 ∧ f % 2 ^ e = 2 ^ (e - 1)

instance (e f : Nat) : Decidable (InFrame e f) := inferInstanceAs (Decidable (_ ∧ _))

theorem InFrame.unique (h : InFrame e f) (h' : InFrame e' f) : e = e' := by
  have hlt {e e' : Nat} (h : InFrame e f) (h' : InFrame e' f) : ¬ e < e' := by
    intro hlt
    have hdvd : 2 ^ e ∣ 2 ^ e' := Nat.pow_dvd_pow 2 (Nat.le_of_lt hlt)
    have hdvd' : 2 ^ e ∣ 2 ^ (e' - 1) := Nat.pow_dvd_pow 2 (Nat.le_sub_one_of_lt hlt)
    have hmod := Nat.mod_mod_of_dvd f hdvd
    rw [h'.2, h.2, Nat.mod_eq_zero_of_dvd hdvd'] at hmod
    exact absurd hmod (Nat.ne_of_lt (Nat.two_pow_pos _))
  exact Nat.le_antisymm (Nat.le_of_not_lt (hlt h' h)) (Nat.le_of_not_lt (hlt h h'))

theorem inFrame_start (h : e ≠ 0) : InFrame e (2 ^ (e - 1)) :=
  ⟨h, Nat.mod_eq_of_lt (Nat.pow_lt_pow_right (by decide) (Nat.sub_one_lt h))⟩

theorem linkFrames_eq (hms : 0 < ms) (fuel i : Nat) (links : Nat → Nat)
    (hfuel : size ≤ i + fuel * ms)
    (f : Nat) : linkFrames size ms word fuel i links f =
      if i ≤ f ∧ f < size ∧ (f - i) % ms = 0 then word else links f := by
  induction fuel generalizing i links with
  | zero => rw [linkFrames, if_neg (by omega)]
  | succ fuel ih =>
    rw [linkFrames]
    by_cases hi : i < size
    · rw [if_pos hi, ih _ _ (by rw [Nat.succ_mul] at hfuel; omega)]
      by_cases hif : f = i
      · subst hif
        rw [if_neg (by omega), Function.update_self, if_pos ⟨Nat.le_refl _, hi, by simp⟩]
      · rw [Function.update_of_ne hif]
        refine if_congr ?_ rfl rfl
        constructor
        · rintro ⟨hle, hlt, hmod⟩
          refine ⟨by omega, hlt, ?_⟩
          rw [show f - i = f - (i + ms) + ms by omega, Nat.add_mod_right, hmod]
        · rintro ⟨hle, hlt, hmod⟩
          have hge : ms ≤ f - i := Nat.le_of_dvd (by omega) (Nat.dvd_of_mod_eq_zero hmod)
          refine ⟨by omega, hlt, ?_⟩
          rw [show f - (i + ms) = f - i - ms by omega, ← Nat.mod_eq_sub_mod hge, hmod]
    · rw [if_neg hi, if_neg (by omega)]

theorem inFrame_iff (he : e ≠ 0) (f : Nat) :
    InFrame e f ↔ 2 ^ (e - 1) ≤ f ∧ (f - 2 ^ (e - 1)) % 2 ^ e = 0 := by
  have hpow : 2 ^ e = 2 * 2 ^ (e - 1) := by
    rw [← Nat.pow_succ', Nat.succ_eq_add_one, Nat.sub_add_cancel (Nat.pos_of_ne_zero he)]
  have hpos := Nat.two_pow_pos (e - 1)
  constructor
  · rintro ⟨-, hmod⟩
    have hle : 2 ^ (e - 1) ≤ f := hmod ▸ Nat.mod_le f _
    refine ⟨hle, ?_⟩
    have hdiv := Nat.div_add_mod f (2 ^ e)
    rw [hmod] at hdiv
    rw [show f - 2 ^ (e - 1) = 2 ^ e * (f / 2 ^ e) by omega, Nat.mul_mod_right]
  · rintro ⟨hle, hmod⟩
    obtain ⟨k, hk⟩ := Nat.dvd_of_mod_eq_zero hmod
    refine ⟨he, ?_⟩
    rw [show f = 2 ^ (e - 1) + 2 ^ e * k by omega, Nat.add_mul_mod_self_left, Nat.mod_eq_of_lt (by omega)]

-- ---------------------------------------------------------------------------
-- The invariant
-- ---------------------------------------------------------------------------

section

variable {c : Layout} {base : Nat} {s : Schedule} {ps : List Pipe}

def Pipe.exp (c : Layout) (p : Pipe) : Nat := frameExp c p.ep

/-- The pipes in front of the base queue in a frame. -/
def front (c : Layout) (ps : List Pipe) (f : Nat) : List Nat :=
  (ps.filter fun p => InFrame (p.exp c) f).map Pipe.addr

/-- The pipes behind the base queue. -/
def everyFrame (c : Layout) (ps : List Pipe) : List Nat :=
  (ps.filter fun p => p.exp c = 0).map Pipe.addr

def frameChain (c : Layout) (base : Nat) (ps : List Pipe) (f : Nat) : List Nat :=
  front c ps f ++ base :: everyFrame c ps

structure Inv (c : Layout) (base : Nat) (s : Schedule) (ps : List Pipe) : Prop where
  nodup : (base :: ps.map Pipe.addr).Nodup
  first : s.links 0 = c.link base
  chains : ∀ f < c.size, Chain c.target s.next (s.links f) (frameChain c base ps f)

theorem frameChain_subset : ∀ a ∈ frameChain c base ps f, a ∈ base :: ps.map Pipe.addr := by
  intro a ha
  obtain hfront | hrest := List.mem_append.mp ha
  · obtain ⟨p, hp, rfl⟩ := List.mem_map.mp hfront
    exact List.mem_cons_of_mem _ (List.mem_map_of_mem (List.mem_of_mem_filter hp))
  · obtain rfl | hevery := List.mem_cons.mp hrest
    · exact List.mem_cons_self
    · obtain ⟨p, hp, rfl⟩ := List.mem_map.mp hevery
      exact List.mem_cons_of_mem _ (List.mem_map_of_mem (List.mem_of_mem_filter hp))

theorem frameChain_nodup (h : (base :: ps.map Pipe.addr).Nodup) :
    (frameChain c base ps f).Nodup := by
  obtain ⟨hbase, hps⟩ := List.nodup_cons.mp h
  have hsub (P : Pipe → Bool) : ((ps.filter P).map Pipe.addr).Sublist (ps.map Pipe.addr) :=
    List.filter_sublist.map _
  refine List.nodup_append.mpr ⟨(hsub _).nodup hps, List.nodup_cons.mpr
    ⟨fun hmem => hbase ((hsub _).subset hmem), (hsub _).nodup hps⟩, fun a ha b hb => ?_⟩
  rintro rfl
  obtain rfl | hb := List.mem_cons.mp hb
  · exact hbase ((hsub _).subset ha)
  · obtain ⟨p, hp, rfl⟩ := List.mem_map.mp ha
    obtain ⟨q, hq, heq⟩ := List.mem_map.mp hb
    obtain ⟨hpmem, hpframe⟩ := List.mem_filter.mp hp
    obtain ⟨hqmem, hqexp⟩ := List.mem_filter.mp hq
    obtain rfl := List.inj_on_of_nodup_map hps hqmem hpmem heq
    exact (of_decide_eq_true hpframe).1 (of_decide_eq_true hqexp)

theorem front_cons (p : Pipe) : front c (p :: ps) f =
    if InFrame (p.exp c) f then p.addr :: front c ps f else front c ps f := by
  rw [front, List.filter_cons]
  by_cases h : InFrame (p.exp c) f
  · rw [if_pos (decide_eq_true h), if_pos h]
    rfl
  · rw [if_neg (by simp [h]), if_neg h]
    rfl

theorem everyFrame_cons (p : Pipe) : everyFrame c (p :: ps) =
    if p.exp c = 0 then p.addr :: everyFrame c ps else everyFrame c ps := by
  rw [everyFrame, List.filter_cons]
  by_cases h : p.exp c = 0
  · rw [if_pos (decide_eq_true h), if_pos h]
    rfl
  · rw [if_neg (by simp [h]), if_neg h]
    rfl

theorem front_eq (h : InFrame e f) (h' : InFrame e f') : front c ps f = front c ps f' := by
  refine congrArg (List.map Pipe.addr)
    (List.filter_congr fun p _ => decide_eq_decide.mpr ⟨fun hp => ?_, fun hp => ?_⟩)
  · exact (hp.unique h) ▸ h'
  · exact (hp.unique h') ▸ h

theorem inv_configure (hc : c.Lawful) (hbase : c.usable base) :
    Inv c base (configure c base) [] := by
  refine ⟨List.nodup_singleton base, rfl, fun f _ => .cons (hc.target_link base hbase) (.nil ?_)⟩
  show c.target (Function.update (fun _ => 0) base c.term base) = none
  rw [Function.update_self]
  exact hc.target_term

theorem frameExp_le (c : Layout) (ep : Endpoint) : frameExp c ep ≤ c.maxExp := by
  simp only [frameExp]
  split <;> omega

theorem inv_alloc (hc : c.Lawful) (hbase : c.usable base) (h : Inv c base s ps) (ep : Endpoint)
    (husable : c.usable pipe) (hfresh : pipe ∉ base :: ps.map Pipe.addr) :
    Inv c base (allocIntrPipe c s ep (some pipe)) (⟨pipe, ep⟩ :: ps) := by
  have hnodup : (base :: (⟨pipe, ep⟩ :: ps : List Pipe).map Pipe.addr).Nodup := by
    rw [List.map_cons]
    exact (List.nodup_cons.mpr ⟨hfresh, h.nodup⟩).perm (List.Perm.swap _ _ _)
  have hnot (f : Nat) :
    pipe ∉ frameChain c base ps f := fun hmem => hfresh (frameChain_subset _ hmem)
  rw [allocIntrPipe, addToSchedule]
  have hexp : Pipe.exp c ⟨pipe, ep⟩ = frameExp c ep := rfl
  by_cases he : frameExp c ep = 0
  · have hintr : c.addr (s.links 0) = base := by rw [h.first, hc.addr_link base hbase]
    simp only [if_pos he, hintr]
    refine ⟨hnodup, h.first, fun f hf => ?_⟩
    have hchain : frameChain c base (⟨pipe, ep⟩ :: ps) f =
        front c ps f ++ base :: pipe :: everyFrame c ps := by
      rw [frameChain, front_cons, everyFrame_cons, hexp, if_neg fun hin => hin.1 he, if_pos he]
    rw [hchain]
    exact (h.chains f hf).insert (frameChain_nodup h.nodup) (hnot f) (hc.target_link pipe husable)
  · have hstart : 1 <<< (frameExp c ep - 1) = 2 ^ (frameExp c ep - 1) := Nat.one_shiftLeft _
    have hms : 1 <<< frameExp c ep = 2 ^ frameExp c ep := Nat.one_shiftLeft _
    have hlinks (f : Nat) : linkFrames c.size (2 ^ frameExp c ep) (c.link pipe) c.size
        (2 ^ (frameExp c ep - 1)) s.links f =
          if InFrame (frameExp c ep) f ∧ f < c.size then c.link pipe else s.links f := by
      rw [linkFrames_eq (Nat.two_pow_pos _) _ _ _
        (Nat.le_trans (Nat.le_mul_of_pos_right _ (Nat.two_pow_pos _)) (Nat.le_add_left _ _))]
      refine if_congr ?_ rfl rfl
      rw [inFrame_iff he]
      exact ⟨fun hall => ⟨⟨hall.1, hall.2.2⟩, hall.2.1⟩, fun hall => ⟨hall.1.1, hall.2, hall.1.2⟩⟩
    have hstartlt : 2 ^ (frameExp c ep - 1) < c.size := by
      rw [hc.size]
      exact Nat.pow_lt_pow_right (by decide)
        (Nat.lt_of_lt_of_le (Nat.sub_one_lt he) (frameExp_le c ep))
    simp only [if_neg he, hstart, hms]
    refine ⟨hnodup, ?_, fun f hf => ?_⟩
    · have hzero : ¬ InFrame (frameExp c ep) 0 := fun hin =>
        Nat.ne_of_lt (Nat.two_pow_pos _) ((Nat.zero_mod _).symm.trans hin.2)
      exact (hlinks 0).trans ((if_neg fun hin => hzero hin.1).trans h.first)
    · show Chain c.target _ (linkFrames _ _ _ _ _ _ f) _
      rw [hlinks f, frameChain, front_cons, everyFrame_cons, hexp, if_neg he]
      by_cases hin : InFrame (frameExp c ep) f
      · -- a frame of the pipe has the pipes of the frame whose head was copied
        rw [if_pos ⟨hin, hf⟩, if_pos hin, front_eq hin (inFrame_start he)]
        exact (h.chains _ hstartlt).push (hnot _) (hc.target_link pipe husable)
      · rw [if_neg fun hboth => hin hboth.1, if_neg hin]
        exact (h.chains f hf).congr fun a ha =>
          Function.update_of_ne (fun heq : a = pipe => hnot f (heq ▸ ha)) _ _

theorem Reachable.inv (hc : c.Lawful) (hbase : c.usable base) (h : Reachable c base s ps) :
    Inv c base s ps := by
  induction h with
  | configured => exact inv_configure hc hbase
  | noMemory _ ep ih => exact ih
  | alloc _ ep husable hfresh ih => exact inv_alloc hc hbase ih ep husable hfresh

-- ---------------------------------------------------------------------------
-- Where a pipe is reached
-- ---------------------------------------------------------------------------

theorem frameExp_interval (c : Layout) (ep : Endpoint) :
    8 * 2 ^ frameExp c ep ≤ max 8 ep.interval := by
  have hget : 8 * 2 ^ usbGetFrameExp ep ≤ max 8 ep.interval := by
    obtain ⟨highspeed, bInterval⟩ := ep
    cases highspeed with
    | false =>
      simp only [usbGetFrameExp, Endpoint.interval, Bool.not_false, if_true, Bool.false_eq_true,
        if_false]
      split
      · omega
      · have hlog : 2 ^ Nat.log2 bInterval ≤ bInterval := Nat.log2_self_le (by omega)
        omega
    | true =>
      simp only [usbGetFrameExp, Endpoint.interval, Bool.not_true, if_true, Bool.false_eq_true,
        if_false]
      split
      · omega
      · have hpow : 2 ^ (bInterval - 1) = 2 ^ 3 * 2 ^ (bInterval - 4) := by
          rw [← Nat.pow_add]
          congr 1
          omega
        omega
  have hle : frameExp c ep ≤ usbGetFrameExp ep := by
    simp only [frameExp]
    split <;> omega
  exact Nat.le_trans (Nat.mul_le_mul_left 8 (Nat.pow_le_pow_right (by decide) hle)) hget

/-- The first of a pipe's frames. -/
def Pipe.start (c : Layout) (p : Pipe) : Nat := if p.exp c = 0 then 0 else 2 ^ (p.exp c - 1)

theorem Pipe.start_lt (c : Layout) (p : Pipe) : p.start c < 2 ^ p.exp c := by
  rw [Pipe.start]
  by_cases h : p.exp c = 0
  · rw [if_pos h]
    exact Nat.two_pow_pos _
  · rw [if_neg h]
    exact Nat.pow_lt_pow_right (by decide) (Nat.sub_one_lt h)

theorem mem_frameChain (hnodup : (base :: ps.map Pipe.addr).Nodup) (hp : p ∈ ps) :
    p.addr ∈ frameChain c base ps f ↔ f % 2 ^ p.exp c = p.start c := by
  obtain ⟨hbase, hps⟩ := List.nodup_cons.mp hnodup
  have hmem (P : Pipe → Bool) : p.addr ∈ (ps.filter P).map Pipe.addr ↔ P p := by
    constructor
    · intro h
      obtain ⟨q, hq, heq⟩ := List.mem_map.mp h
      obtain ⟨hqmem, hqP⟩ := List.mem_filter.mp hq
      rwa [← List.inj_on_of_nodup_map hps hqmem hp heq]
    · intro h
      exact List.mem_map_of_mem (List.mem_filter.mpr ⟨hp, h⟩)
  have hne : p.addr ≠ base := fun heq => hbase (heq ▸ List.mem_map_of_mem hp)
  rw [frameChain, List.mem_append, List.mem_cons, front, everyFrame, hmem, hmem, decide_eq_true_iff,
    decide_eq_true_iff, Pipe.start]
  by_cases h : p.exp c = 0
  · simp only [h, or_true, if_true, Nat.pow_zero, Nat.mod_one]
  · rw [if_neg h]
    exact ⟨fun hin => hin.elim And.right (·.elim (absurd · hne) (absurd · h)),
      fun hmod => .inl ⟨h, hmod⟩⟩

structure ScheduleRight (c : Layout) (base : Nat) (s : Schedule) (ps : List Pipe) : Prop where
  /-- Every chain ends behind the base queue with the pipes of all frames. -/
  chains : ∀ f < c.size, ∃ before, (before ++ base :: everyFrame c ps).Nodup ∧
    Chain c.target s.next (s.links f) (before ++ base :: everyFrame c ps)
  /-- The frames with a pipe are one class modulo its period. -/
  reached : ∀ p ∈ ps, ∃ e start, 8 * 2 ^ e ≤ max 8 p.ep.interval ∧ 2 ^ e ∣ c.size ∧ start < 2 ^ e ∧
    ∀ f < c.size, ∀ l, Chain c.target s.next (s.links f) l → (p.addr ∈ l ↔ f % 2 ^ e = start)

theorem Inv.right (hc : c.Lawful) (h : Inv c base s ps) : ScheduleRight c base s ps := by
  refine ⟨fun f hf => ⟨front c ps f, frameChain_nodup h.nodup, h.chains f hf⟩, fun p hp => ?_⟩
  refine ⟨p.exp c, p.start c, frameExp_interval c p.ep, ?_, p.start_lt c, fun f hf l hl => ?_⟩
  · rw [hc.size]
    exact Nat.pow_dvd_pow 2 (frameExp_le c p.ep)
  · rw [hl.unique (h.chains f hf)]
    exact mem_frameChain h.nodup hp

theorem Controller.lawful : (c : Controller) → c.layout.Lawful
  | ohci => ohciLayout_lawful
  | ehci => ehciLayout_lawful

end

theorem allocIntrPipe_right (c : Controller) (hbase : c.layout.usable base)
    (h : Reachable c.layout base s ps) : ScheduleRight c.layout base s ps :=
  (h.inv c.lawful hbase).right c.lawful

/-- A keyboard every 8 ms and a fast mouse. -/
theorem allocIntrPipe_right_twoPipes :
    ScheduleRight Controller.ehci.layout 32
      (ehciAllocIntrPipe (ehciAllocIntrPipe (configure ehciLayout 32) ⟨false, 8⟩ (some 64)) ⟨true, 1⟩
        (some 96)) [⟨96, true, 1⟩, ⟨64, false, 8⟩] := by
  have usable (k : Nat) : ehciLayout.usable (32 * k) := Nat.dvd_mul_right 32 k
  exact allocIntrPipe_right .ehci (usable 1)
    (.alloc (.alloc .configured _ (usable 2) (by decide)) _ (usable 3) (by decide))

/-- A pipe for every microframe is reached in every frame only, and behind the base queue. -/
theorem ehciAllocIntrPipe_everyMicroframe :
    let s := ehciAllocIntrPipe (configure ehciLayout 32) ⟨true, 1⟩ (some 64)
    Reachable ehciLayout 32 s [⟨64, true, 1⟩] ∧ (⟨true, 1⟩ : Endpoint).interval = 1 ∧
      ∀ f < 1024, Chain ehciLayout.target s.next (s.links f) [32, 64] := by
  refine ⟨.alloc .configured _ ⟨2, rfl⟩ (by decide), rfl, fun f hf => ?_⟩
  have hbase : ehciLayout.target 34 = some 32 := by decide
  have hpipe : ehciLayout.target 66 = some 64 := by decide
  have hterm : ehciLayout.target 1 = none := by decide
  exact .cons hbase (.cons hpipe (.nil hterm))

end ItxLlama.Seabios.UsbPeriodic
