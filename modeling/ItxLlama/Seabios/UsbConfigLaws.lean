import ItxLlama.Seabios.UsbConfig

/-!
# What is read of a configuration

Which bytes of the configuration the allocation of a pipe, the walks over the
descriptors and the drivers look at, and when all of them are in the buffer.
-/

namespace ItxLlama.Seabios.Usb

open Lib.Word Lib.Bytes Lib.Checked
open StateTransition

-- ---------------------------------------------------------------------------
-- The allocation of a pipe
-- ---------------------------------------------------------------------------

section Pipes

variable (env : Env) (config : Nat → Byte) (size : Nat)

/-- The build has the driver of the device's controller. -/
def compiled : Bool :=
  match env.cntl with
  | .uhci => env.options.usbUhci
  | .ohci => env.options.usbOhci
  | .ehci => env.options.usbEhci
  | .xhci => env.options.usbXhci

def eptypeOf (epdesc : Nat) : Byte := config (epdesc + 3) &&& usbEndpointXfertypeMask

/-- The bytes of an endpoint descriptor that are looked at to allocate a pipe: up to the
attributes, the packet size or the interval. -/
def pipeNeeds (n epdesc : Nat) : Nat :=
  let out := env.allocPipe n
  let eptype := eptypeOf config epdesc
  match env.cntl with
  | .uhci | .ehci => if eptype = usbEndpointXferInt then 7 else if out.pipe then 6 else 4
  | .ohci =>
    if eptype = usbEndpointXferInt then 7
    else if eptype = usbEndpointXferControl ∧ out.pipe then 6 else 4
  | .xhci =>
    if out.pipe = false then 4 else if eptype = usbEndpointXferInt ∧ out.inctx then 7 else 6

/-- Where there is no endpoint descriptor, no code may look at it. -/
def PipeFits (n : Nat) : Option Nat → Prop
  | none => compiled env = false
  | some epdesc => compiled env = true → epdesc + pipeNeeds env config n epdesc ≤ size

def pipeOf (epdesc : Nat) : UsbPipe :=
  ⟨config (epdesc + 2) &&& usbEndpointNumberMask, le16 config (epdesc + 4), eptypeOf config epdesc⟩

def gotPipe (n epdesc : Nat) : Bool :=
  let out := env.allocPipe n
  let eptype := eptypeOf config epdesc
  match env.cntl with
  | .uhci | .ehci => out.pipe
  | .ohci => out.pipe && (eptype = usbEndpointXferInt || eptype = usbEndpointXferControl)
  | .xhci => out.pipe && out.inctx && out.commands

/-- What an allocation gives, whatever memory the descriptor is in. -/
def pipeResult (n : Nat) : Option Nat → Option UsbPipe
  | none => none
  | some epdesc =>
    if compiled env && gotPipe env config n epdesc then some (pipeOf config epdesc) else none

variable {env config size} {β : Type} {b : β}

theorem wMaxPacketSize_bind_eq_ok {f : Nat → Guarded β} :
    wMaxPacketSize (readIn 0 size config) (some epdesc) >>= f = .ok b ↔
      epdesc + 6 ≤ size ∧ f (le16 config (epdesc + 4)) = .ok b := by
  unfold wMaxPacketSize readEp
  simp only [bind_assoc, pure_bind, readIn_bind_eq_ok, Nat.zero_le, true_and]
  constructor
  · rintro ⟨-, hin, h⟩
    exact ⟨hin, h⟩
  · rintro ⟨hin, h⟩
    exact ⟨Nat.lt_of_succ_lt hin, hin, h⟩

theorem usbDesc2pipe_bind_eq_ok {f : UsbPipe → Guarded β} :
    usbDesc2pipe (readIn 0 size config) (some epdesc) >>= f = .ok b ↔
      epdesc + 6 ≤ size ∧ f (pipeOf config epdesc) = .ok b := by
  unfold usbDesc2pipe
  simp only [readEp, bind_assoc, pure_bind, readIn_bind_eq_ok, wMaxPacketSize_bind_eq_ok,
    Nat.zero_le, true_and]
  constructor
  · rintro ⟨-, hin, -, h⟩
    exact ⟨hin, h⟩
  · rintro ⟨hin, h⟩
    exact ⟨by omega, hin, by omega, h⟩

/-- The exponent itself is only for the schedule. -/
theorem usbGetFrameExp_bind_eq_ok {g : Guarded β} :
    (usbGetFrameExp env (readIn 0 size config) (some epdesc) >>= fun _ => g) = .ok b ↔
      epdesc + 7 ≤ size ∧ g = .ok b := by
  unfold usbGetFrameExp readEp
  simp only [bind_assoc, readIn_bind_eq_ok, Nat.zero_le, true_and]
  refine and_congr_right fun _ => ?_
  cases env.highSpeed with
  | false => exact Iff.rfl
  | true => exact Iff.rfl

theorem allocIntrPipe_eq_ok_iff (out : PipeOutcome) (epdesc : Nat) (r : Option UsbPipe) :
    allocIntrPipe env (readIn 0 size config) out (some epdesc) = .ok r ↔
      epdesc + 7 ≤ size ∧ r = if out.pipe then some (pipeOf config epdesc) else none := by
  unfold allocIntrPipe
  simp only [usbGetFrameExp_bind_eq_ok, wMaxPacketSize_bind_eq_ok]
  cases out.pipe with
  | false =>
    simp only [if_true, Bool.false_eq_true, if_false, pure, Except.pure, Except.ok.injEq]
    constructor
    · rintro ⟨hin, -, rfl⟩
      exact ⟨hin, rfl⟩
    · rintro ⟨hin, rfl⟩
      exact ⟨hin, Nat.le_of_succ_le hin, rfl⟩
  | true =>
    simp only [if_true, Bool.true_eq_false, if_false, usbDesc2pipe_bind_eq_ok, pure, Except.pure,
      Except.ok.injEq]
    constructor
    · rintro ⟨hin, -, -, rfl⟩
      exact ⟨hin, rfl⟩
    · rintro ⟨hin, rfl⟩
      exact ⟨hin, Nat.le_of_succ_le hin, Nat.le_of_succ_le hin, rfl⟩

theorem allocPipe_eq_ok_iff (enabled : Bool) (out : PipeOutcome) (epdesc : Nat)
    (r : Option UsbPipe) :
    allocPipe env (readIn 0 size config) enabled out (some epdesc) = .ok r ↔
      (enabled = true → epdesc + (if eptypeOf config epdesc = usbEndpointXferInt then 7
        else if out.pipe then 6 else 4) ≤ size) ∧
      r = if enabled && out.pipe then some (pipeOf config epdesc) else none := by
  unfold allocPipe
  cases enabled with
  | false =>
    simp only [if_true, Bool.false_eq_true, false_imp_iff, Bool.false_and, if_false, true_and, pure,
      Except.pure, Except.ok.injEq, eq_comm]
  | true =>
    have htype : config (epdesc + 3) &&& usbEndpointXfertypeMask = eptypeOf config epdesc := rfl
    simp only [Bool.true_eq_false, if_false, true_imp_iff, Bool.true_and, readEp,
      readIn_bind_eq_ok, Nat.zero_le, true_and, htype]
    by_cases hint : eptypeOf config epdesc = usbEndpointXferInt
    · simp only [hint, if_true, allocIntrPipe_eq_ok_iff]
      constructor
      · rintro ⟨-, h⟩
        exact h
      · rintro ⟨hin, h⟩
        exact ⟨by omega, hin, h⟩
    · cases out.pipe with
      | false =>
        simp only [hint, if_false, if_true, Bool.false_eq_true, pure, Except.pure,
          Except.ok.injEq, eq_comm]
        exact Iff.rfl
      | true =>
        simp only [hint, if_false, if_true, Bool.true_eq_false, usbDesc2pipe_bind_eq_ok, pure,
          Except.pure, Except.ok.injEq]
        constructor
        · rintro ⟨-, hin, rfl⟩
          exact ⟨hin, rfl⟩
        · rintro ⟨hin, rfl⟩
          exact ⟨by omega, hin, rfl⟩

theorem ohciAllocPipe_eq_ok_iff (out : PipeOutcome) (epdesc : Nat) (r : Option UsbPipe) :
    ohciAllocPipe env (readIn 0 size config) out (some epdesc) = .ok r ↔
      (env.options.usbOhci = true → epdesc + (if eptypeOf config epdesc = usbEndpointXferInt then 7
        else if eptypeOf config epdesc = usbEndpointXferControl ∧ out.pipe then 6 else 4) ≤ size) ∧
      r = if env.options.usbOhci && (out.pipe && (eptypeOf config epdesc = usbEndpointXferInt ||
        eptypeOf config epdesc = usbEndpointXferControl)) then some (pipeOf config epdesc)
        else none := by
  unfold ohciAllocPipe
  cases env.options.usbOhci with
  | false =>
    simp only [if_true, Bool.false_eq_true, false_imp_iff, Bool.false_and, if_false, true_and, pure,
      Except.pure, Except.ok.injEq, eq_comm]
  | true =>
    have htype : config (epdesc + 3) &&& usbEndpointXfertypeMask = eptypeOf config epdesc := rfl
    simp only [Bool.true_eq_false, if_false, true_imp_iff, Bool.true_and, readEp,
      readIn_bind_eq_ok, Nat.zero_le, true_and, htype]
    by_cases hint : eptypeOf config epdesc = usbEndpointXferInt
    · simp only [hint, if_true, allocIntrPipe_eq_ok_iff, decide_true, Bool.true_or, Bool.and_true]
      constructor
      · rintro ⟨-, h⟩
        exact h
      · rintro ⟨hin, h⟩
        exact ⟨by omega, hin, h⟩
    · by_cases hcontrol : eptypeOf config epdesc = usbEndpointXferControl
      · have hne : ¬ usbEndpointXferControl = usbEndpointXferInt := by decide
        cases out.pipe with
        | false =>
          simp only [hcontrol, hne, if_false, if_true, ne_eq, not_true, Bool.false_eq_true,
            and_false, Bool.false_and, pure, Except.pure, Except.ok.injEq, eq_comm]
          exact Iff.rfl
        | true =>
          simp only [hcontrol, hne, if_false, if_true, ne_eq, not_true, Bool.true_eq_false,
            and_self, decide_true, Bool.or_true, usbDesc2pipe_bind_eq_ok, pure, Except.pure,
            Except.ok.injEq]
          constructor
          · rintro ⟨-, hin, rfl⟩
            exact ⟨hin, rfl⟩
          · rintro ⟨hin, rfl⟩
            exact ⟨by omega, hin, rfl⟩
      · simp only [hint, hcontrol, if_false, if_true, ne_eq, not_false_iff, false_and,
          decide_false, Bool.or_self, Bool.and_false, Bool.false_eq_true, pure, Except.pure,
          Except.ok.injEq, eq_comm]
        exact Iff.rfl

theorem xhciAllocPipe_eq_ok_iff (out : PipeOutcome) (epdesc : Nat) (r : Option UsbPipe) :
    xhciAllocPipe env (readIn 0 size config) out (some epdesc) = .ok r ↔
      (env.options.usbXhci = true → epdesc + (if out.pipe = false then 4
        else if eptypeOf config epdesc = usbEndpointXferInt ∧ out.inctx then 7 else 6) ≤ size) ∧
      r = if env.options.usbXhci && (out.pipe && out.inctx && out.commands)
        then some (pipeOf config epdesc) else none := by
  unfold xhciAllocPipe
  cases env.options.usbXhci with
  | false =>
    simp only [if_true, Bool.false_eq_true, false_imp_iff, Bool.false_and, if_false, true_and, pure,
      Except.pure, Except.ok.injEq, eq_comm]
  | true =>
    have htype : config (epdesc + 3) &&& usbEndpointXfertypeMask = eptypeOf config epdesc := rfl
    simp only [Bool.true_eq_false, if_false, true_imp_iff, Bool.true_and, readEp,
      readIn_bind_eq_ok, Nat.zero_le, true_and, htype]
    cases out.pipe with
    | false =>
      simp only [if_true, Bool.false_and, Bool.false_eq_true, if_false, pure, Except.pure,
        Except.ok.injEq, eq_comm]
      constructor
      · rintro ⟨hin, -, h⟩
        exact ⟨hin, h⟩
      · rintro ⟨hin, h⟩
        exact ⟨hin, by omega, h⟩
    | true =>
      simp only [Bool.true_eq_false, if_false, usbDesc2pipe_bind_eq_ok, Bool.true_and]
      cases out.inctx with
      | false =>
        simp only [if_true, Bool.false_and, Bool.false_eq_true, and_false, if_false, pure,
          Except.pure, Except.ok.injEq, eq_comm]
        constructor
        · rintro ⟨-, -, hin, h⟩
          exact ⟨hin, h⟩
        · rintro ⟨hin, h⟩
          exact ⟨by omega, by omega, hin, h⟩
      | true =>
        simp only [Bool.true_eq_false, if_false, Bool.true_and, and_true]
        by_cases hint : eptypeOf config epdesc = usbEndpointXferInt
        · simp only [hint, if_true, usbGetFrameExp_bind_eq_ok]
          simp only [pure, Except.pure, Except.ok.injEq, eq_comm]
          constructor
          · rintro ⟨-, -, -, hin, h⟩
            exact ⟨hin, h⟩
          · rintro ⟨hin, h⟩
            exact ⟨by omega, by omega, by omega, hin, h⟩
        · simp only [hint, if_false, pure, Except.pure, Except.ok.injEq, eq_comm]
          constructor
          · rintro ⟨-, -, hin, h⟩
            exact ⟨hin, h⟩
          · rintro ⟨hin, h⟩
            exact ⟨by omega, by omega, hin, h⟩

theorem usbAllocPipe_none_eq_ok_iff (n : Nat) (r : Option UsbPipe) :
    usbAllocPipe env (readIn 0 size config) n none = .ok r ↔ compiled env = false ∧ r = none := by
  have hoff (enabled : Bool) (f : Byte → Guarded (Option UsbPipe)) :
      (if enabled = false then .ok none else .error .outside >>= f) = .ok r ↔
        enabled = false ∧ r = none := by
    cases enabled with
    | false => exact ⟨fun h => ⟨rfl, (Except.ok.inj h).symm⟩, fun h => congrArg _ h.2.symm⟩
    | true => exact ⟨fun h => absurd h nofun, fun h => absurd h.1 nofun⟩
  unfold usbAllocPipe compiled
  cases env.cntl with
  | uhci => exact hoff _ _
  | ohci => exact hoff _ _
  | ehci => exact hoff _ _
  | xhci => exact hoff _ _

/-- The allocation of a pipe reads just the bytes that its descriptor needs. -/
theorem usbAllocPipe_eq_ok_iff (n : Nat) (ep : Option Nat) (r : Option UsbPipe) :
    usbAllocPipe env (readIn 0 size config) n ep = .ok r ↔
      PipeFits env config size n ep ∧ r = pipeResult env config n ep := by
  cases ep with
  | none => exact usbAllocPipe_none_eq_ok_iff n r
  | some epdesc =>
    unfold usbAllocPipe PipeFits pipeResult compiled pipeNeeds gotPipe
    cases env.cntl with
    | uhci => exact allocPipe_eq_ok_iff _ _ epdesc r
    | ohci => exact ohciAllocPipe_eq_ok_iff _ epdesc r
    | ehci => exact allocPipe_eq_ok_iff _ _ epdesc r
    | xhci => exact xhciAllocPipe_eq_ok_iff _ epdesc r

end Pipes

-- ---------------------------------------------------------------------------
-- The walk over the descriptors
-- ---------------------------------------------------------------------------

section EndPoints

variable (config : Nat → Byte) (size : Nat) (imax : Int) (type dir : Byte)

/-- An endpoint descriptor of the type and direction asked for. -/
def IsEndPoint (epdesc : Nat) : Prop :=
  config (epdesc + 1) = usbDtEndpoint ∧ config (epdesc + 2) &&& usbEndpointDirMask = dir ∧
    config (epdesc + 3) &&& usbEndpointXfertypeMask = type

instance (epdesc : Nat) : Decidable (IsEndPoint config type dir epdesc) :=
  inferInstanceAs (Decidable (_ ∧ _ ∧ _))

/-- What a turn makes of the descriptor, whatever memory it is in. -/
def endPointResult (epdesc : Nat) : Option Nat ⊕ Nat :=
  if (epdesc : Int) ≥ iface + imax then .inl none
  else if config (epdesc + 1) = usbDtInterface then .inl none
  else if IsEndPoint config type dir epdesc then .inl (some epdesc)
  else .inr (epdesc + (config epdesc).toNat)

/-- The bytes of the descriptor that a turn looks at. -/
def endPointNeeds (epdesc : Nat) : Nat :=
  if config (epdesc + 1) ≠ usbDtEndpoint then 2
  else if config (epdesc + 2) &&& usbEndpointDirMask ≠ dir then 3 else 4

def EndPointFits (epdesc : Nat) : Prop :=
  (epdesc : Int) < iface + imax → epdesc + endPointNeeds config dir epdesc ≤ size

variable {config size imax type dir}

theorem endPointTurn_eq_ok_iff (epdesc : Nat) (r : Option Nat ⊕ Nat) :
    endPointTurn (readIn 0 size config) imax type dir epdesc = .ok r ↔
      EndPointFits config size imax dir epdesc ∧
        r = endPointResult config imax type dir epdesc := by
  unfold endPointTurn EndPointFits endPointNeeds endPointResult IsEndPoint
  by_cases hend : (epdesc : Int) ≥ iface + imax
  · have hlt : ¬ (epdesc : Int) < iface + imax := by omega
    simp only [hend, if_true, hlt, false_imp_iff, true_and, pure, Except.pure, Except.ok.injEq,
      eq_comm]
  · have hlt : (epdesc : Int) < iface + imax := by omega
    simp only [hend, if_false, hlt, true_imp_iff, readIn_bind_eq_ok, Nat.zero_le, true_and]
    by_cases hep : config (epdesc + 1) = usbDtEndpoint
    · have hne : ¬ usbDtEndpoint = usbDtInterface := by decide
      by_cases hdir : config (epdesc + 2) &&& usbEndpointDirMask = dir
      · by_cases htype : config (epdesc + 3) &&& usbEndpointXfertypeMask = type
        · simp only [hep, hne, hdir, htype, if_true, if_false, readIn_bind_eq_ok, pure, Except.pure,
            Except.ok.injEq, ne_eq, not_true, and_self, Nat.zero_le, true_and]
          constructor
          · rintro ⟨h1, h2, h3, rfl⟩
            exact ⟨by omega, rfl⟩
          · rintro ⟨h, rfl⟩
            exact ⟨by omega, by omega, by omega, rfl⟩
        · simp only [hep, hne, hdir, htype, if_true, if_false, readIn_bind_eq_ok, pure, Except.pure,
            Except.ok.injEq, ne_eq, not_true, and_false, Nat.zero_le, true_and]
          constructor
          · rintro ⟨h1, h2, h3, h4, rfl⟩
            exact ⟨by omega, rfl⟩
          · rintro ⟨h, rfl⟩
            exact ⟨by omega, by omega, by omega, by omega, rfl⟩
      · simp only [hep, hne, hdir, if_true, if_false, readIn_bind_eq_ok, pure, Except.pure,
          Except.ok.injEq, ne_eq, not_true, not_false_iff, and_false, false_and, Nat.zero_le,
            true_and]
        constructor
        · rintro ⟨h1, h2, h3, rfl⟩
          exact ⟨by omega, rfl⟩
        · rintro ⟨h, rfl⟩
          exact ⟨by omega, by omega, by omega, rfl⟩
    · by_cases hiface : config (epdesc + 1) = usbDtInterface
      · have hne : ¬ usbDtInterface = usbDtEndpoint := by decide
        simp only [hiface, hne, if_true, pure, Except.pure, Except.ok.injEq, ne_eq, not_false_iff]
        constructor
        · rintro ⟨h, rfl⟩
          exact ⟨by omega, rfl⟩
        · rintro ⟨h, rfl⟩
          exact ⟨by omega, rfl⟩
      · simp only [hep, hiface, if_true, if_false, readIn_bind_eq_ok, pure, Except.pure,
          Except.ok.injEq, ne_eq, not_false_iff, false_and, Nat.zero_le, true_and]
        constructor
        · rintro ⟨h1, h2, rfl⟩
          exact ⟨by omega, rfl⟩
        · rintro ⟨h, rfl⟩
          exact ⟨by omega, by omega, rfl⟩

/-- The descriptors that the walk comes to have the fields that it looks at in the buffer, and a
length that leads on. -/
structure DescriptorsFit (config : Nat → Byte) (size : Nat) (imax : Int) (type dir : Byte) :
    Prop where
  fit : ∀ epdesc, Reaches (next (endPointResult config imax type dir)) ifaceEnd epdesc →
    EndPointFits config size imax dir epdesc
  bLength : ∀ epdesc t, Reaches (next (endPointResult config imax type dir)) ifaceEnd epdesc →
    endPointResult config imax type dir epdesc = .inr t → config epdesc ≠ 0

/-- The first endpoint descriptor of this type and direction. -/
structure FirstEndPoint (config : Nat → Byte) (imax : Int) (type dir : Byte) (epdesc : Nat) :
    Prop where
  reached : Reaches (next (endPointResult config imax type dir)) ifaceEnd epdesc
  inside : (epdesc : Int) < iface + imax
  isEndPoint : IsEndPoint config type dir epdesc

theorem endPointResult_inr (h : endPointResult config imax type dir epdesc = .inr t) :
    (epdesc : Int) < iface + imax ∧ t = epdesc + (config epdesc).toNat := by
  unfold endPointResult at h
  split at h
  case isTrue => cases h
  case isFalse hend =>
    split at h
    case isTrue => cases h
    case isFalse =>
      split at h
      case isTrue => cases h
      case isFalse => exact ⟨Int.lt_of_not_ge hend, (Sum.inr.inj h).symm⟩

theorem endPointResult_inl (h : endPointResult config imax type dir epdesc = .inl (some ep)) :
    (epdesc : Int) < iface + imax ∧ ep = epdesc ∧ IsEndPoint config type dir ep := by
  unfold endPointResult at h
  split at h
  case isTrue => cases h
  case isFalse hend =>
    split at h
    case isTrue => cases h
    case isFalse =>
      split at h
      case isTrue hep =>
        cases h
        exact ⟨Int.lt_of_not_ge hend, rfl, hep⟩
      case isFalse => cases h

theorem FirstEndPoint.result (h : FirstEndPoint config imax type dir epdesc) :
    endPointResult config imax type dir epdesc = .inl (some epdesc) := by
  have htype : ¬ config (epdesc + 1) = usbDtInterface := by
    rw [h.isEndPoint.1]
    decide
  rw [endPointResult, if_neg (Int.not_le.mpr h.inside), if_neg htype, if_pos h.isEndPoint]

theorem lt_add_toNat_iff (a : Nat) (b : Byte) : a < a + b.toNat ↔ b ≠ 0 := by
  rw [Nat.lt_add_right_iff_pos, Nat.pos_iff_ne_zero, ne_eq, ne_eq, ← BitVec.toNat_inj]
  rfl

theorem findEndPointDesc_ok_iff :
    (∃ turns r, findEndPointDesc (readIn 0 size config) turns imax type dir = .ok r) ↔
      DescriptorsFit config size imax type dir := by
  unfold findEndPointDesc
  rw [walk_fits_iff id size endPointTurn_eq_ok_iff]
  · constructor
    · intro h
      refine ⟨fun s hs => (h s hs).1, fun s t hs ht => ?_⟩
      rw [← lt_add_toNat_iff s, ← (endPointResult_inr ht).2]
      exact (h s hs).2 t ht
    · intro h s hs
      refine ⟨h.fit s hs, fun t ht => ?_⟩
      rw [(endPointResult_inr ht).2]
      exact (lt_add_toNat_iff s _).mpr (h.bLength s t hs ht)
  · intro s t h
    rw [(endPointResult_inr h).2]
    exact Nat.le_add_right _ _
  · intro s t hfits h
    have hneeds := hfits (endPointResult_inr h).1
    have hpos : 0 < endPointNeeds config dir s := by
      unfold endPointNeeds
      split
      · decide
      · split <;> decide
    exact Nat.lt_of_lt_of_le (Nat.lt_add_of_pos_right hpos) hneeds
  · intro s t _ _ h hpos
    obtain rfl : t = s := hpos
    exact ⟨t, h, rfl⟩

/-- What is found is the first endpoint that there is. -/
theorem findEndPointDesc_eq_some_iff
    (h : findEndPointDesc (readIn 0 size config) turns imax type dir = .ok found) :
    found = some ep ↔ FirstEndPoint config imax type dir ep := by
  obtain ⟨last, hlast, hresult⟩ := loop_result endPointTurn_eq_ok_iff h
  constructor
  · rintro rfl
    obtain ⟨hin, rfl, hep⟩ := endPointResult_inl hresult
    exact ⟨hlast, hin, hep⟩
  · intro hfirst
    obtain rfl := last_unique hlast hfirst.reached hresult hfirst.result
    exact Sum.inl.inj (hresult.symm.trans hfirst.result)

theorem findEndPointDesc_more {turns : Nat} {read : Nat → Guarded Byte}
    (h : findEndPointDesc read turns imax type dir = .ok found) (more : Nat) :
    findEndPointDesc read (turns + more) imax type dir = .ok found := loop_more h more

theorem FirstEndPoint.ifaceEnd_le (h : FirstEndPoint config imax type dir epdesc) :
    ifaceEnd ≤ epdesc := by
  have hle (s : Nat) (hs : Reaches (next (endPointResult config imax type dir)) ifaceEnd s) :
      ifaceEnd ≤ s := by
    induction hs with
    | refl => exact Nat.le_refl _
    | tail _ hs ih =>
      rw [(endPointResult_inr (next_eq_some_iff.mp hs)).2]
      exact Nat.le_add_right_of_le ih
  exact hle epdesc h.reached

theorem FirstEndPoint.protocol_lt (h : FirstEndPoint config imax type dir epdesc)
    (hfits : DescriptorsFit config size imax type dir) : iface + 7 < size := by
  have hneeds := hfits.fit epdesc h.reached h.inside
  have hge := h.ifaceEnd_le
  unfold ifaceEnd at hge
  omega

end EndPoints

section Uas

variable (env : Env) (config : Nat → Byte) (size : Nat)

def uasDesc (desc : Nat) : Nat := desc + (config desc).toNat

/-- `UAS_PIPE_ID_COMMAND`, `UAS_PIPE_ID_STATUS`, `UAS_PIPE_ID_DATA_IN` or `UAS_PIPE_ID_DATA_OUT` -/
def IsPipeId (id : Byte) : Prop := id = 1 ∨ id = 2 ∨ id = 3 ∨ id = 4

instance (id : Byte) : Decidable (IsPipeId id) := inferInstanceAs (Decidable (_ ∨ _ ∨ _ ∨ _))

/-- What a turn of the loop of `usb_uas_setup` makes of the descriptor, whatever memory it is in. -/
def uasResult (s : UasWalk) : Option UasWalk ⊕ UasWalk :=
  let desc := uasDesc config s.desc
  if config (desc + 1) = usbDtEndpoint then .inr { s with desc := desc, ep := some desc }
  else if config (desc + 1) = usbDtEndpointCompanion then .inl none
  else if config (desc + 1) = 0x24 then
    if IsPipeId (config (desc + 2)) then
      .inr ({ s with desc := desc, count := s.count + 1 }.setPipe (config (desc + 2))
        (pipeResult env config s.count s.ep))
    else .inl none
  else .inl (some s)

/-- The bytes that a turn looks at are in the buffer, with those of the endpoint descriptor that it
allocates a pipe from. -/
structure UasFits (s : UasWalk) : Prop where
  desc : s.desc < size
  type : uasDesc config s.desc + 1 < size
  id : config (uasDesc config s.desc + 1) = 0x24 → uasDesc config s.desc + 2 < size
  pipe : config (uasDesc config s.desc + 1) = 0x24 → IsPipeId (config (uasDesc config s.desc + 2)) →
    PipeFits env config size s.count s.ep

variable {env config size}

theorem uasTurn_eq_ok_iff (s : UasWalk) (r : Option UasWalk ⊕ UasWalk) :
    uasTurn env (readIn 0 size config) s = .ok r ↔
      UasFits env config size s ∧ r = uasResult env config s := by
  have hdesc : s.desc + (config s.desc).toNat = uasDesc config s.desc := rfl
  unfold uasTurn uasResult
  simp only [readIn_bind_eq_ok, hdesc, Nat.zero_le, true_and]
  have hother (h : ¬ config (uasDesc config s.desc + 1) = 0x24) (hin : s.desc < size)
      (htype : uasDesc config s.desc + 1 < size) : UasFits env config size s :=
    ⟨hin, htype, fun hpipe => absurd hpipe h, fun hpipe => absurd hpipe h⟩
  by_cases hep : config (uasDesc config s.desc + 1) = usbDtEndpoint
  · have hne : ¬ config (uasDesc config s.desc + 1) = 0x24 := by
      rw [hep]
      decide
    simp only [if_pos hep, pure, Except.pure, Except.ok.injEq]
    constructor
    · rintro ⟨hin, htype, rfl⟩
      exact ⟨hother hne hin htype, rfl⟩
    · rintro ⟨hfits, rfl⟩
      exact ⟨hfits.desc, hfits.type, rfl⟩
  · by_cases hcompanion : config (uasDesc config s.desc + 1) = usbDtEndpointCompanion
    · have hne : ¬ config (uasDesc config s.desc + 1) = 0x24 := by
        rw [hcompanion]
        decide
      simp only [if_neg hep, if_pos hcompanion, pure, Except.pure, Except.ok.injEq]
      constructor
      · rintro ⟨hin, htype, rfl⟩
        exact ⟨hother hne hin htype, rfl⟩
      · rintro ⟨hfits, rfl⟩
        exact ⟨hfits.desc, hfits.type, rfl⟩
    · by_cases hpipe : config (uasDesc config s.desc + 1) = 0x24
      · simp only [if_neg hep, if_neg hcompanion, if_pos hpipe, readIn_bind_eq_ok, Nat.zero_le,
          true_and]
        by_cases hid : IsPipeId (config (uasDesc config s.desc + 2))
        · have hid' : config (uasDesc config s.desc + 2) = 1 ∨ config (uasDesc config s.desc + 2) = 2 ∨
            config (uasDesc config s.desc + 2) = 3 ∨ config (uasDesc config s.desc + 2) = 4 := hid
          simp only [if_pos hid, if_pos hid', bind_eq_ok, usbAllocPipe_eq_ok_iff, pure, Except.pure,
            Except.ok.injEq]
          constructor
          · rintro ⟨hin, htype, hthird, pipe, ⟨hfits, rfl⟩, rfl⟩
            exact ⟨⟨hin, htype, fun _ => hthird, fun _ _ => hfits⟩, rfl⟩
          · rintro ⟨hfits, rfl⟩
            exact ⟨hfits.desc, hfits.type, hfits.id hpipe, _, ⟨hfits.pipe hpipe hid, rfl⟩, rfl⟩
        · have hid' : ¬ (config (uasDesc config s.desc + 2) = 1 ∨
            config (uasDesc config s.desc + 2) = 2 ∨ config (uasDesc config s.desc + 2) = 3 ∨
              config (uasDesc config s.desc + 2) = 4) := hid
          simp only [if_neg hid, if_neg hid', pure, Except.pure, Except.ok.injEq]
          constructor
          · rintro ⟨hin, htype, hthird, rfl⟩
            exact ⟨⟨hin, htype, fun _ => hthird, fun _ h => absurd h hid⟩, rfl⟩
          · rintro ⟨hfits, rfl⟩
            exact ⟨hfits.desc, hfits.type, hfits.id hpipe, rfl⟩
      · simp only [if_neg hep, if_neg hcompanion, if_neg hpipe, pure, Except.pure,
          Except.ok.injEq]
        constructor
        · rintro ⟨hin, htype, rfl⟩
          exact ⟨hother hpipe hin htype, rfl⟩
        · rintro ⟨hfits, rfl⟩
          exact ⟨hfits.desc, hfits.type, rfl⟩

/-- The descriptors that the walk of `usb_uas_setup` comes to fit in the buffer and lead on. -/
structure UasDescriptorsFit (env : Env) (config : Nat → Byte) (size : Nat) : Prop where
  fit : ∀ s, Reaches (next (uasResult env config)) uasStart s → UasFits env config size s
  bLength : ∀ s t, Reaches (next (uasResult env config)) uasStart s →
    uasResult env config s = .inr t → config s.desc ≠ 0

@[simp] theorem setPipe_desc (s : UasWalk) (id : Byte) (pipe : Option UsbPipe) :
    (s.setPipe id pipe).desc = s.desc := by
  unfold UasWalk.setPipe
  split
  · rfl
  · split
    · rfl
    · split <;> rfl

/-- A descriptor that the walk goes on from. -/
def UasGoesOn (config : Nat → Byte) (desc : Nat) : Prop :=
  config (desc + 1) = usbDtEndpoint ∨ config (desc + 1) = 0x24 ∧ IsPipeId (config (desc + 2))

theorem uasResult_inr {s t : UasWalk} (h : uasResult env config s = .inr t) :
    t.desc = uasDesc config s.desc ∧ UasGoesOn config t.desc := by
  unfold uasResult at h
  simp only at h
  split at h
  case isTrue hep =>
    cases h
    exact ⟨rfl, Or.inl hep⟩
  case isFalse =>
    split at h
    case isTrue => cases h
    case isFalse =>
      split at h
      case isFalse => cases h
      case isTrue hpipe =>
        split at h
        case isFalse => cases h
        case isTrue hid =>
          cases h
          rw [setPipe_desc]
          exact ⟨rfl, Or.inr ⟨hpipe, hid⟩⟩

theorem uasResult_of_goesOn {s : UasWalk} (h : UasGoesOn config (uasDesc config s.desc)) :
    ∃ t, uasResult env config s = .inr t ∧ t.desc = uasDesc config s.desc := by
  unfold uasResult
  simp only
  rcases h with hep | ⟨hpipe, hid⟩
  · rw [if_pos hep]
    exact ⟨_, rfl, rfl⟩
  · have hne : ¬ (0x24 : Byte) = usbDtEndpoint := by decide
    have hne' : ¬ (0x24 : Byte) = usbDtEndpointCompanion := by decide
    rw [hpipe, if_neg hne, if_neg hne', if_pos rfl, if_pos hid]
    exact ⟨_, rfl, setPipe_desc _ _ _⟩

theorem uasLoop_ok_iff :
    (∃ turns r, loop (uasTurn env (readIn 0 size config)) turns uasStart = .ok r) ↔
      UasDescriptorsFit env config size := by
  rw [walk_fits_iff UasWalk.desc size uasTurn_eq_ok_iff]
  · constructor
    · intro h
      refine ⟨fun s hs => (h s hs).1, fun s t hs ht => ?_⟩
      have hlt := (h s hs).2 t ht
      rw [(uasResult_inr ht).1] at hlt
      exact (lt_add_toNat_iff _ _).mp hlt
    · intro h s hs
      refine ⟨h.fit s hs, fun t ht => ?_⟩
      rw [(uasResult_inr ht).1]
      exact (lt_add_toNat_iff _ _).mpr (h.bLength s t hs ht)
  · intro s t h
    rw [(uasResult_inr h).1]
    exact Nat.le_add_right _ _
  · intro s t hfits h
    exact hfits.desc
  · -- the pipes differ, the descriptor does not
    intro s t _ _ h hpos
    obtain ⟨hdesc, hgo⟩ := uasResult_inr h
    have hsame : uasDesc config t.desc = t.desc := by rw [hpos, ← hdesc, hpos]
    obtain ⟨u, hu, hu'⟩ : ∃ u, uasResult env config t = .inr u ∧ u.desc = uasDesc config t.desc :=
      uasResult_of_goesOn (hsame.symm ▸ hgo)
    exact ⟨u, hu, hu'.trans hsame⟩

end Uas

-- ---------------------------------------------------------------------------
-- The drivers
-- ---------------------------------------------------------------------------

/-- The interface's class has a driver. -/
def Supported (bInterfaceClass : Byte) : Prop :=
  bInterfaceClass = usbClassHid ∨ bInterfaceClass = usbClassMassStorage ∨
    bInterfaceClass = usbClassHub

section Drivers

variable (env : Env) (config : Nat → Byte) (size : Nat) (imax : Int)

/-- A first keyboard has its packet size looked at, and gets a pipe if that is right. -/
def KbdFits (epdesc : Nat) : Prop :=
  env.options.usbKeyboard = true → env.keyboardPipe = false →
    epdesc + 6 ≤ size ∧ (le16 config (epdesc + 4) = 8 → env.setProtocol = true →
      env.setIdle = true → PipeFits env config size 0 (some epdesc))

def MouseFits (epdesc : Nat) : Prop :=
  env.options.usbMouse = true → env.mousePipe = false →
    epdesc + 6 ≤ size ∧ (3 ≤ le16 config (epdesc + 4) → le16 config (epdesc + 4) ≤ 8 →
      env.setProtocol = true → PipeFits env config size 0 (some epdesc))

structure HidFits : Prop where
  subClass : iface + 6 < size
  descriptors : config (iface + 6) = usbInterfaceSubclassBoot →
    DescriptorsFit config size imax usbEndpointXferInt usbDirIn
  keyboard : config (iface + 6) = usbInterfaceSubclassBoot →
    config (iface + 7) = usbInterfaceProtocolKeyboard → ∀ epdesc,
    FirstEndPoint config imax usbEndpointXferInt usbDirIn epdesc → KbdFits env config size epdesc
  mouse : config (iface + 6) = usbInterfaceSubclassBoot →
    config (iface + 7) = usbInterfaceProtocolMouse → ∀ epdesc,
    FirstEndPoint config imax usbEndpointXferInt usbDirIn epdesc → MouseFits env config size epdesc

def IsMscSubClass (bInterfaceSubClass : Byte) : Prop :=
  bInterfaceSubClass = usScScsi ∨ bInterfaceSubClass = usScAtapi8070 ∨
    bInterfaceSubClass = usScAtapi8020

/-- Both walks fit, and so do both endpoints if there are two. -/
structure MscFits : Prop where
  inDescriptors : DescriptorsFit config size imax usbEndpointXferBulk usbDirIn
  outDescriptors : DescriptorsFit config size imax usbEndpointXferBulk usbDirOut
  pipes : ∀ indesc outdesc, FirstEndPoint config imax usbEndpointXferBulk usbDirIn indesc →
    FirstEndPoint config imax usbEndpointXferBulk usbDirOut outdesc →
    PipeFits env config size 0 (some indesc) ∧ PipeFits env config size 1 (some outdesc)

structure MassStorageFits : Prop where
  protocol : iface + 7 < size
  bulk : env.options.usbMsc = true → config (iface + 7) = usPrBulk →
    IsMscSubClass (config (iface + 6)) → MscFits env config size imax
  uas : env.options.usbUas = true → config (iface + 7) = usPrUas →
    config (iface + 6) = usScScsi → UasDescriptorsFit env config size

variable {env config size imax} {β : Type}

theorem exists_wMaxPacketSize_iff {f : Nat → Guarded β} :
    (∃ r, wMaxPacketSize (readIn 0 size config) (some epdesc) >>= f = .ok r) ↔
      epdesc + 6 ≤ size ∧ ∃ r, f (le16 config (epdesc + 4)) = .ok r := by
  simp only [wMaxPacketSize_bind_eq_ok, exists_and_left]

theorem exists_usbAllocPipe_iff {f : Option UsbPipe → Guarded β} (n : Nat) (ep : Option Nat) :
    (∃ r, usbAllocPipe env (readIn 0 size config) n ep >>= f = .ok r) ↔
      PipeFits env config size n ep ∧ ∃ r, f (pipeResult env config n ep) = .ok r := by
  simp only [bind_eq_ok, usbAllocPipe_eq_ok_iff]
  constructor
  · rintro ⟨r, pipe, ⟨hfits, rfl⟩, h⟩
    exact ⟨hfits, r, h⟩
  · rintro ⟨hfits, r, h⟩
    exact ⟨r, _, ⟨hfits, rfl⟩, h⟩

/-- The last step of both set-ups. -/
theorem exists_pipe_iff (epdesc : Nat) :
    (∃ r, (do
      let some _ ← usbAllocPipe env (readIn 0 size config) 0 (some epdesc) | return -1
      return 0 : Guarded Int) = .ok r) ↔ PipeFits env config size 0 (some epdesc) := by
  rw [exists_usbAllocPipe_iff]
  refine and_iff_left ?_
  cases pipeResult env config 0 (some epdesc) with
  | none => exact ⟨_, rfl⟩
  | some pipe => exact ⟨_, rfl⟩

theorem usbKbdSetup_ok_iff (epdesc : Nat) :
    (∃ r, usbKbdSetup env (readIn 0 size config) epdesc = .ok r) ↔
      KbdFits env config size epdesc := by
  unfold usbKbdSetup KbdFits
  cases env.options.usbKeyboard with
  | false => exact iff_of_true ⟨_, rfl⟩ (fun h => absurd h Bool.false_ne_true)
  | true =>
    cases env.keyboardPipe with
    | true => exact iff_of_true ⟨_, rfl⟩ (fun _ h => absurd h.symm Bool.false_ne_true)
    | false =>
      simp only [Bool.true_eq_false, Bool.false_eq_true, if_false, true_imp_iff,
        exists_wMaxPacketSize_iff]
      refine and_congr_right fun _ => ?_
      by_cases hmax : le16 config (epdesc + 4) = 8
      · simp only [hmax, ne_eq, not_true, if_false, true_imp_iff]
        cases env.setProtocol with
        | false => exact iff_of_true ⟨_, rfl⟩ (fun h => absurd h Bool.false_ne_true)
        | true =>
          cases env.setIdle with
          | false => exact iff_of_true ⟨_, rfl⟩ (fun _ h => absurd h Bool.false_ne_true)
          | true =>
            simp only [Bool.true_eq_false, if_false, true_imp_iff]
            exact exists_pipe_iff epdesc
      · simp only [hmax, ne_eq, not_false_iff, if_true, false_imp_iff]
        exact iff_of_true ⟨_, rfl⟩ trivial

theorem usbMouseSetup_ok_iff (epdesc : Nat) :
    (∃ r, usbMouseSetup env (readIn 0 size config) epdesc = .ok r) ↔
      MouseFits env config size epdesc := by
  unfold usbMouseSetup MouseFits
  cases env.options.usbMouse with
  | false => exact iff_of_true ⟨_, rfl⟩ (fun h => absurd h Bool.false_ne_true)
  | true =>
    cases env.mousePipe with
    | true => exact iff_of_true ⟨_, rfl⟩ (fun _ h => absurd h.symm Bool.false_ne_true)
    | false =>
      simp only [Bool.true_eq_false, Bool.false_eq_true, if_false, true_imp_iff,
        exists_wMaxPacketSize_iff]
      refine and_congr_right fun _ => ?_
      by_cases hmax : le16 config (epdesc + 4) < 3 ∨ le16 config (epdesc + 4) > 8
      · rw [if_pos hmax]
        refine iff_of_true ⟨_, rfl⟩ fun hlo hhi => ?_
        rcases hmax with h | h
        · exact absurd hlo (Nat.not_le.mpr h)
        · exact absurd hhi (Nat.not_le.mpr h)
      · rw [if_neg hmax]
        obtain ⟨hlo, hhi⟩ := not_or.mp hmax
        simp only [Nat.le_of_not_lt hlo, Nat.le_of_not_lt hhi, true_imp_iff]
        cases env.setProtocol with
        | false => exact iff_of_true ⟨_, rfl⟩ (fun h => absurd h Bool.false_ne_true)
        | true =>
          simp only [Bool.true_eq_false, if_false, true_imp_iff]
          exact exists_pipe_iff epdesc

theorem hidProtocol_ok_iff (hprotocol : iface + 7 < size) :
    (∃ r, hidProtocol env (readIn 0 size config) epdesc = .ok r) ↔
      (config (iface + 7) = usbInterfaceProtocolKeyboard → KbdFits env config size epdesc) ∧
        (config (iface + 7) = usbInterfaceProtocolMouse → MouseFits env config size epdesc) := by
  unfold hidProtocol
  simp only [readIn_bind_eq_ok, Nat.zero_le, true_and, hprotocol]
  by_cases hkeyboard : config (iface + 7) = usbInterfaceProtocolKeyboard
  · have hne : ¬ usbInterfaceProtocolKeyboard = usbInterfaceProtocolMouse := by decide
    simp only [hkeyboard, if_true, hne, true_imp_iff, false_imp_iff, and_true]
    exact usbKbdSetup_ok_iff epdesc
  · by_cases hmouse : config (iface + 7) = usbInterfaceProtocolMouse
    · have hne : ¬ usbInterfaceProtocolMouse = usbInterfaceProtocolKeyboard := by decide
      simp only [hmouse, hne, if_false, if_true, true_imp_iff, false_imp_iff, true_and]
      exact usbMouseSetup_ok_iff epdesc
    · simp only [hkeyboard, hmouse, if_false, false_imp_iff, and_self]
      exact iff_of_true ⟨_, rfl⟩ trivial

theorem usbHidSetup_ok_iff :
    (∃ turns r, usbHidSetup env (readIn 0 size config) turns imax = .ok r) ↔
      ((env.options.usbKeyboard = true ∨ env.options.usbMouse = true) →
        HidFits env config size imax) := by
  unfold usbHidSetup
  by_cases hbuilt : env.options.usbKeyboard = true ∨ env.options.usbMouse = true
  · have hdrives : ¬ (env.options.usbKeyboard = false ∧ env.options.usbMouse = false) := by
      rintro ⟨hkeyboard, hmouse⟩
      simp only [hkeyboard, hmouse, Bool.false_eq_true, or_self] at hbuilt
    simp only [if_neg hdrives, hbuilt, true_imp_iff, readIn_bind_eq_ok, Nat.zero_le, true_and]
    by_cases hsub : iface + 6 < size
    · by_cases hboot : config (iface + 6) = usbInterfaceSubclassBoot
      · simp only [hsub, hboot, ne_eq, not_true, if_false, true_and]
        constructor
        · rintro ⟨turns, r, h⟩
          obtain ⟨found, hfound, h⟩ := bind_eq_ok.mp h
          have hdescriptors := findEndPointDesc_ok_iff.mp ⟨turns, found, hfound⟩
          have hprotocols (epdesc : Nat)
              (hfirst : FirstEndPoint config imax usbEndpointXferInt usbDirIn epdesc) :
              (config (iface + 7) = usbInterfaceProtocolKeyboard →
                KbdFits env config size epdesc) ∧
              (config (iface + 7) = usbInterfaceProtocolMouse →
                MouseFits env config size epdesc) := by
            obtain rfl := (findEndPointDesc_eq_some_iff hfound).mpr hfirst
            exact (hidProtocol_ok_iff (hfirst.protocol_lt hdescriptors)).mp ⟨r, h⟩
          exact ⟨hsub, fun _ => hdescriptors, fun _ hp epdesc hf => (hprotocols epdesc hf).1 hp,
            fun _ hp epdesc hf => (hprotocols epdesc hf).2 hp⟩
        · intro hfits
          have hdescriptors := hfits.descriptors hboot
          obtain ⟨turns, found, hfound⟩ := findEndPointDesc_ok_iff.mpr hdescriptors
          refine ⟨turns, ?_⟩
          rw [hfound, ok_bind]
          cases found with
          | none => exact ⟨_, rfl⟩
          | some epdesc =>
            have hfirst := (findEndPointDesc_eq_some_iff hfound).mp rfl
            exact (hidProtocol_ok_iff (hfirst.protocol_lt hdescriptors)).mpr
              ⟨fun hp => hfits.keyboard hboot hp epdesc hfirst,
                fun hp => hfits.mouse hboot hp epdesc hfirst⟩
      · simp only [hsub, hboot, ne_eq, not_false_iff, if_true, true_and]
        exact iff_of_true ⟨0, _, rfl⟩ ⟨hsub, fun h => absurd h hboot, fun h => absurd h hboot,
          fun h => absurd h hboot⟩
    · simp only [hsub, false_and, exists_false, false_iff]
      exact fun h => hsub h.subClass
  · have hdrives : env.options.usbKeyboard = false ∧ env.options.usbMouse = false := by
      obtain ⟨hkeyboard, hmouse⟩ := not_or.mp hbuilt
      exact ⟨Bool.eq_false_of_not_eq_true hkeyboard, Bool.eq_false_of_not_eq_true hmouse⟩
    simp only [if_pos hdrives]
    exact iff_of_true ⟨0, _, rfl⟩ fun h => absurd h hbuilt

/-- The two walks of `usb_msc_setup` and the pipes for what they find. -/
theorem mscPipes_ok_iff :
    (∃ turns r, (do
      let indesc ← findEndPointDesc (readIn 0 size config) turns imax usbEndpointXferBulk usbDirIn
      let outdesc ← findEndPointDesc (readIn 0 size config) turns imax usbEndpointXferBulk usbDirOut
      match indesc, outdesc with
      | some indesc, some outdesc =>
        let inpipe ← usbAllocPipe env (readIn 0 size config) 0 (some indesc)
        let outpipe ← usbAllocPipe env (readIn 0 size config) 1 (some outdesc)
        if inpipe = none ∨ outpipe = none then return -1
        return if env.mscDrives then 0 else -1
      | _, _ => return -1 : Guarded Int) = .ok r) ↔ MscFits env config size imax := by
  constructor
  · rintro ⟨turns, r, h⟩
    obtain ⟨foundIn, hin, h⟩ := bind_eq_ok.mp h
    obtain ⟨foundOut, hout, h⟩ := bind_eq_ok.mp h
    refine ⟨findEndPointDesc_ok_iff.mp ⟨turns, foundIn, hin⟩,
      findEndPointDesc_ok_iff.mp ⟨turns, foundOut, hout⟩, fun indesc outdesc hfirst hfirst' => ?_⟩
    obtain rfl := (findEndPointDesc_eq_some_iff hin).mpr hfirst
    obtain rfl := (findEndPointDesc_eq_some_iff hout).mpr hfirst'
    obtain ⟨hfits, r, h⟩ := (exists_usbAllocPipe_iff 0 (some indesc)).mp ⟨r, h⟩
    exact ⟨hfits, ((exists_usbAllocPipe_iff 1 (some outdesc)).mp ⟨r, h⟩).1⟩
  · intro hfits
    obtain ⟨turns, foundIn, hin⟩ := findEndPointDesc_ok_iff.mpr hfits.inDescriptors
    obtain ⟨turns', foundOut, hout⟩ := findEndPointDesc_ok_iff.mpr hfits.outDescriptors
    refine ⟨turns + turns', ?_⟩
    rw [findEndPointDesc_more hin, ok_bind, Nat.add_comm, findEndPointDesc_more hout, ok_bind]
    cases foundIn with
    | none => exact ⟨_, rfl⟩
    | some indesc =>
      cases foundOut with
      | none => exact ⟨_, rfl⟩
      | some outdesc =>
        obtain ⟨hpipe, hpipe'⟩ := hfits.pipes indesc outdesc
          ((findEndPointDesc_eq_some_iff hin).mp rfl) ((findEndPointDesc_eq_some_iff hout).mp rfl)
        refine (exists_usbAllocPipe_iff 0 (some indesc)).mpr ⟨hpipe, ?_⟩
        refine (exists_usbAllocPipe_iff 1 (some outdesc)).mpr ⟨hpipe', ?_⟩
        split <;> exact ⟨_, rfl⟩

theorem usbMscSetup_ok_iff (hprotocol : iface + 7 < size) :
    (∃ turns r, usbMscSetup env (readIn 0 size config) turns imax = .ok r) ↔
      (env.options.usbMsc = true → IsMscSubClass (config (iface + 6)) →
        MscFits env config size imax) := by
  have hsub : iface + 6 < size := Nat.lt_of_succ_lt hprotocol
  unfold usbMscSetup
  cases env.options.usbMsc with
  | false => exact iff_of_true ⟨0, _, rfl⟩ (fun h => absurd h Bool.false_ne_true)
  | true =>
    simp only [Bool.true_eq_false, if_false, true_imp_iff, readIn_bind_eq_ok, Nat.zero_le,
      true_and, hsub]
    by_cases hdriver : IsMscSubClass (config (iface + 6))
    · have hdrives : ¬ (config (iface + 6) ≠ usScScsi ∧ config (iface + 6) ≠ usScAtapi8070 ∧
          config (iface + 6) ≠ usScAtapi8020) := by
        rintro ⟨h1, h2, h3⟩
        rcases hdriver with h | h | h
        · exact h1 h
        · exact h2 h
        · exact h3 h
      simp only [if_neg hdrives, hdriver, true_imp_iff]
      exact mscPipes_ok_iff
    · have hdrives : config (iface + 6) ≠ usScScsi ∧ config (iface + 6) ≠ usScAtapi8070 ∧
          config (iface + 6) ≠ usScAtapi8020 :=
        ⟨fun h => hdriver (Or.inl h), fun h => hdriver (Or.inr (Or.inl h)),
          fun h => hdriver (Or.inr (Or.inr h))⟩
      simp only [if_pos hdrives]
      exact iff_of_true ⟨0, _, rfl⟩ fun h => absurd h hdriver

theorem usbUasSetup_ok_iff (hprotocol : iface + 7 < size) :
    (∃ turns r, usbUasSetup env (readIn 0 size config) turns = .ok r) ↔
      (env.options.usbUas = true → config (iface + 6) = usScScsi →
        UasDescriptorsFit env config size) := by
  have hsub : iface + 6 < size := Nat.lt_of_succ_lt hprotocol
  unfold usbUasSetup
  cases env.options.usbUas with
  | false => exact iff_of_true ⟨0, _, rfl⟩ (fun h => absurd h Bool.false_ne_true)
  | true =>
    simp only [Bool.true_eq_false, if_false, true_imp_iff, readIn_bind_eq_ok, Nat.zero_le,
      true_and, hsub]
    by_cases hscsi : config (iface + 6) = usScScsi
    · simp only [hscsi, ne_eq, not_true, if_false, true_imp_iff, ← uasLoop_ok_iff]
      constructor
      · rintro ⟨turns, r, h⟩
        obtain ⟨last, hlast, -⟩ := bind_eq_ok.mp h
        exact ⟨turns, last, hlast⟩
      · rintro ⟨turns, last, hlast⟩
        refine ⟨turns, ?_⟩
        rw [hlast, ok_bind]
        cases last with
        | none => exact ⟨_, rfl⟩
        | some s =>
          simp only
          split <;> exact ⟨_, rfl⟩
    · simp only [hscsi, ne_eq, not_false_iff, if_true, false_imp_iff]
      exact iff_of_true ⟨0, _, rfl⟩ trivial

/-- What the driver for the class asks of the configuration. -/
structure DriverFits (env : Env) (config : Nat → Byte) (size : Nat) (imax : Int) : Prop where
  hid : config (iface + 5) = usbClassHid →
    (env.options.usbKeyboard = true ∨ env.options.usbMouse = true) → HidFits env config size imax
  massStorage : config (iface + 5) = usbClassMassStorage → MassStorageFits env config size imax

theorem massStorage_ok_iff :
    (∃ turns r, (do
      let bInterfaceProtocol ← readIn 0 size config (iface + 7)
      if bInterfaceProtocol = usPrBulk then usbMscSetup env (readIn 0 size config) turns imax
      else if bInterfaceProtocol = usPrUas then usbUasSetup env (readIn 0 size config) turns
      else return 0) = .ok r) ↔ MassStorageFits env config size imax := by
  simp only [readIn_bind_eq_ok, Nat.zero_le, true_and]
  by_cases hprotocol : iface + 7 < size
  · simp only [hprotocol, true_and]
    by_cases hbulk : config (iface + 7) = usPrBulk
    · have hne : ¬ config (iface + 7) = usPrUas := by
        rw [hbulk]
        decide
      simp only [if_pos hbulk]
      rw [usbMscSetup_ok_iff hprotocol]
      exact ⟨fun h => ⟨hprotocol, fun hmsc _ => h hmsc, fun _ huas => absurd huas hne⟩,
        fun h hmsc => h.bulk hmsc hbulk⟩
    · simp only [if_neg hbulk]
      by_cases huas : config (iface + 7) = usPrUas
      · simp only [if_pos huas]
        rw [usbUasSetup_ok_iff hprotocol]
        exact ⟨fun h => ⟨hprotocol, fun _ hb => absurd hb hbulk, fun hon _ => h hon⟩,
          fun h hon => h.uas hon huas⟩
      · simp only [if_neg huas]
        exact iff_of_true ⟨0, _, rfl⟩
          ⟨hprotocol, fun _ hb => absurd hb hbulk, fun _ hu => absurd hu huas⟩
  · simp only [hprotocol, false_and, exists_false, false_iff]
    exact fun h => hprotocol h.protocol

theorem driverSetup_ok_iff (hclass : Supported (config (iface + 5))) :
    (∃ turns r, driverSetup env (readIn 0 size config) turns (config (iface + 5)) imax = .ok r) ↔
      DriverFits env config size imax := by
  unfold driverSetup
  rcases hclass with hhid | hmsc | hhub
  · have hhub : ¬ usbClassHid = usbClassHub := by decide
    have hmsc : ¬ usbClassHid = usbClassMassStorage := by decide
    simp only [hhid, hhub, hmsc, if_false]
    rw [usbHidSetup_ok_iff]
    exact ⟨fun h => ⟨fun _ => h, fun hclass => absurd (hhid.symm.trans hclass) hmsc⟩,
      fun h => h.hid hhid⟩
  · have hhub : ¬ usbClassMassStorage = usbClassHub := by decide
    have hhid : ¬ usbClassMassStorage = usbClassHid := by decide
    simp only [hmsc, hhub, if_true, if_false]
    rw [massStorage_ok_iff]
    exact ⟨fun h => ⟨fun hclass => absurd (hmsc.symm.trans hclass) hhid, fun _ => h⟩,
      fun h => h.massStorage hmsc⟩
  · have hhid : ¬ usbClassHub = usbClassHid := by decide
    have hmsc : ¬ usbClassHub = usbClassMassStorage := by decide
    simp only [hhub, if_true]
    refine iff_of_true ⟨0, ?_⟩ ⟨fun hclass => absurd (hhub.symm.trans hclass) hhid,
      fun hclass => absurd (hhub.symm.trans hclass) hmsc⟩
    unfold usbHubSetup
    split <;> exact ⟨_, rfl⟩

end Drivers

-- ---------------------------------------------------------------------------
-- The device
-- ---------------------------------------------------------------------------

section Device

variable {env : Env} {cfg config : Nat → Byte} {size : Nat}

/-- What is read of a configuration lies in its buffer: the class of the interface does, and so
does what the driver for the class asks for, which goes by the total length in the buffer. -/
structure InterfaceFits (env : Env) (config : Nat → Byte) (size : Nat) : Prop where
  bInterfaceClass : iface + 5 < size
  driver : Supported (config (iface + 5)) → env.setConfiguration (config 5) = true →
    DriverFits env config size ((le16 config 2 : Int) - iface)

theorem readU16_ok_iff (a : Nat) (f : Nat → Guarded Int) :
    (∃ r, readU16 (readIn 0 size config) a >>= f = .ok r) ↔
      a + 1 < size ∧ ∃ r, f (le16 config a) = .ok r := by
  unfold readU16
  simp only [bind_assoc, pure_bind, readIn_bind_eq_ok, Nat.zero_le, true_and]
  constructor
  · rintro ⟨r, -, hlt, hr⟩
    exact ⟨hlt, r, hr⟩
  · rintro ⟨hlt, r, hr⟩
    exact ⟨r, by omega, hlt, hr⟩

theorem configureInterface_ok_iff :
    (∃ turns r, configureInterface env (readIn 0 size config) turns = .ok r) ↔
      InterfaceFits env config size := by
  unfold configureInterface
  simp only [readIn_bind_eq_ok, Nat.zero_le, true_and]
  by_cases hsize : iface + 5 < size
  · simp only [hsize, true_and]
    by_cases hclass : Supported (config (iface + 5))
    · have hne : ¬ (config (iface + 5) ≠ usbClassHid ∧ config (iface + 5) ≠ usbClassMassStorage ∧
          config (iface + 5) ≠ usbClassHub) := by
        unfold Supported at hclass
        tauto
      have hfive : 5 < size := Nat.lt_trans (by decide) hsize
      simp only [if_neg hne, readIn_bind_eq_ok, Nat.zero_le, true_and, hfive]
      cases hset : env.setConfiguration (config 5) with
      | false =>
        simp only [if_true]
        exact iff_of_true ⟨0, _, rfl⟩ ⟨hsize, fun _ h => by rw [hset] at h; exact nomatch h⟩
      | true =>
        have hthree : 2 + 1 < size := Nat.lt_trans (by decide) hsize
        simp only [Bool.true_eq_false, if_false, readU16_ok_iff, hthree, true_and]
        refine Iff.trans ?_ (Iff.trans (driverSetup_ok_iff hclass)
          ⟨fun h => ⟨hsize, fun _ _ => h⟩, fun h => h.driver hclass hset⟩)
        constructor
        · rintro ⟨turns, r, h⟩
          obtain ⟨ret, hret, -⟩ := bind_eq_ok.mp h
          exact ⟨turns, ret, hret⟩
        · rintro ⟨turns, ret, hret⟩
          refine ⟨turns, ?_⟩
          rw [hret, ok_bind]
          split <;> exact ⟨_, rfl⟩
    · have hne : config (iface + 5) ≠ usbClassHid ∧ config (iface + 5) ≠ usbClassMassStorage ∧
          config (iface + 5) ≠ usbClassHub := by
        unfold Supported at hclass
        tauto
      simp only [if_pos hne]
      exact iff_of_true ⟨0, _, rfl⟩ ⟨hsize, fun h => absurd h hclass⟩
  · simp only [hsize, false_and, exists_false, false_iff]
    exact fun h => hsize h.bInterfaceClass

/-- The device gets as far as its configuration. -/
def GetsConfig (env : Env) : Prop :=
  ∃ dinfo, env.getDeviceInfo8 = some dinfo ∧ 8 ≤ maxpacketOf dinfo ∧ env.updatePipe = true

theorem configureUsbDevice_eq (h : GetsConfig env) (hsize : getDeviceConfig env cfg = some size)
    (turns : Nat) :
    configureUsbDevice env cfg config turns = configureInterface env (readIn 0 size config) turns := by
  obtain ⟨dinfo, hinfo, hmax, hpipe⟩ := h
  unfold configureUsbDevice
  simp only [hinfo, if_neg (Nat.not_lt.mpr hmax), hpipe, Bool.true_eq_false, if_false, hsize]

theorem configureUsbDevice_without
    (h : ∀ size, GetsConfig env → getDeviceConfig env cfg ≠ some size)
    (turns : Nat) : ∃ r, configureUsbDevice env cfg config turns = .ok r := by
  unfold configureUsbDevice
  cases hinfo : env.getDeviceInfo8 with
  | none => exact ⟨_, rfl⟩
  | some dinfo =>
    simp only
    split
    case isTrue => exact ⟨_, rfl⟩
    case isFalse hmax =>
      split
      case isTrue => exact ⟨_, rfl⟩
      case isFalse hpipe =>
        cases hconfig : getDeviceConfig env cfg with
        | none => exact ⟨_, rfl⟩
        | some size =>
          have hgets : GetsConfig env :=
            ⟨dinfo, hinfo, Nat.le_of_not_lt hmax, Bool.of_not_eq_false hpipe⟩
          exact absurd hconfig (h size hgets)

/-- The machine as shipped, where everything succeeds. -/
def everyTime : Env where
  options := shipped
  cntl := .ehci
  highSpeed := true
  getDeviceInfo8 := some fun i => if i = 7 then 64 else 0
  updatePipe := true
  getConfigHead := true
  mallocTmphigh _ := true
  getConfig := true
  setConfiguration _ := true
  hubSetup := 0
  keyboardPipe := false
  mousePipe := false
  setProtocol := true
  setIdle := true
  allocPipe _ := ⟨true, true, true⟩
  mscDrives := true
  uasDrive := true

/-- A mass storage device with a descriptor of length 0 behind its interface. -/
def zeroLengthConfig (i : Nat) : Byte :=
  [9, 2, 20, 0, 1, 1, 0, 0x80, 50, 9, 4, 0, 0, 2, 8, 6, 0x50, 0, 0, 0x21].getD i 0

end Device

end ItxLlama.Seabios.Usb
