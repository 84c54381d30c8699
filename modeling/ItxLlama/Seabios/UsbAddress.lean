import ItxLlama.Lib.Mutex
import ItxLlama.Seabios.UsbHub

/-!
# The addresses of USB devices

All hubs of one controller that is not xHCI: its root hub, and the hubs that
`usb_hub_setup` of `hw/usb-hub.c` enumerates from inside the thread of a port.
A port is named by its path, the newest port number first, and a hub by the
path of its device. With the threads of `usb_hub_port_setup` goes what they do
to the devices: which one answers, and at which address.
-/

namespace ItxLlama.Seabios.UsbAddress

open Lib.Word Lib.Mutex UsbHub

/-- A device behind its port: it does not answer, or it answers at the default address or at
the address it was given. -/
inductive Device where
  | quiet
  | default
  | addressed (address : Nat)
  deriving DecidableEq, Repr

/-- What a call does to the device behind the port. After a call that fails, `ok` is whether the
device still did as it was told; for a disconnect it is whether the port is disabled. -/
def Device.after (port : Port) (maxaddr : Nat) (ret : Int) (ok : Bool) (device : Device) : Device :=
  match port.pc with
  -- a failed reset disables the port
  | .reset => if ret < 0 ∧ ok then .quiet else .default
  | .sendAddress => if ret = 0 ∨ ok then .addressed (maxaddr + 1) else device
  | .disconnect => if ok then .quiet else device
  | .freePipe => if port.count = 0 ∧ ok then .quiet else device
  | _ => device

/-- The call should have disabled the port, and has not. -/
def disableFails (port : Port) (ret : Int) (ok : Bool) : Bool :=
  match port.pc with
  | .reset => decide (ret < 0) && !ok
  | .disconnect => !ok
  | .freePipe => decide (port.count = 0) && !ok
  | _ => false

/-- The variables of a hub that is enumerated. -/
structure HubVars where
  portcount : Nat
  threads : Nat
  devcount : Nat
  i : Nat

structure Bus where
  maxaddr : Nat
  isLocked : Bool
  pipes : Nat
  pipeFrees : Nat → Nat
  hubs : List Nat → Option HubVars
  ports : List Nat → Port
  devices : List Nat → Device
  /-- a failed call was to disable the port, and did not -/
  stray : List Nat → Bool

namespace Bus

def shared (s : Bus) (v : HubVars) : Shared :=
  ⟨v.threads, v.devcount, s.maxaddr, s.isLocked, s.pipes, s.pipeFrees⟩

/-- A call of the thread of port `i` of the hub `h`. -/
def portCall (s : Bus) (v : HubVars) (i : Nat) (h : List Nat) (ret : Int) (ok : Bool) :
    Option Bus :=
  let port := s.ports (i :: h)
  (portStep false (s.shared v) port ret).map fun r =>
    { maxaddr := r.1.maxaddr
      isLocked := r.1.isLocked
      pipes := r.1.pipes
      pipeFrees := r.1.pipeFrees
      hubs := Function.update s.hubs h
        (some { v with threads := r.1.threads, devcount := r.1.devcount })
      ports := Function.update s.ports (i :: h) r.2
      devices := Function.update s.devices (i :: h)
        ((s.devices (i :: h)).after port s.maxaddr ret ok)
      stray := Function.update s.stray (i :: h)
        (s.stray (i :: h) || disableFails port ret ok) }

/-- What `usb_hub_setup` returns once its enumeration has. -/
def hubReturns (w : HubVars) (ret : Int) : Prop :=
  w.i = w.portcount ∧ w.threads = 0 ∧ ret = if w.devcount ≠ 0 then 0 else -1

instance (w : HubVars) (ret : Int) : Decidable (hubReturns w ret) :=
  inferInstanceAs (Decidable (_ ∧ _ ∧ _))

end Bus

/-- `usb_hub_setup` gets to `usb_enumerate` for the device of a port; `malloc_tmphigh` for the
next port of a hub; a call of a port's thread. -/
inductive Act where
  | setup (path : List Nat) (portcount : Nat)
  | malloc (h : List Nat) (ok : Bool)
  | port (i : Nat) (h : List Nat) (ret : Int) (ok : Bool)

open Bus in
def step (s : Bus) : Act → Option Bus
  | .setup path portcount =>
    if (s.ports path).pc = .driver ∧ (s.hubs path).isNone then
      some { s with hubs := Function.update s.hubs path (some ⟨portcount, portcount, 0, 0⟩) }
    else none
  | .malloc h ok =>
    (s.hubs h).bind fun v =>
      if v.i < v.portcount then
        let path := v.i :: h
        some { s with
          hubs := Function.update s.hubs h (some { v with i := v.i + 1 })
          ports := Function.update s.ports path
            { s.ports path with pc := if ok then .detect else .noMemory } }
      else none
  | .port i h ret ok =>
    (s.hubs h).bind fun v =>
      match (s.ports (i :: h)).pc, s.hubs (i :: h) with
      -- the driver of the device is usb_hub_setup, and has to return
      | .driver, some w => if hubReturns w ret then s.portCall v i h ret ok else none
      | _, _ => s.portCall v i h ret ok

def run (s : Bus) : List Act → Option Bus
  | [] => some s
  | a :: acts => (step s a).bind fun t => run t acts

def start (portcount : Nat) : Bus where
  maxaddr := 0
  isLocked := false
  pipes := 0
  pipeFrees _ := 0
  hubs path := if path = [] then some ⟨portcount, portcount, 0, 0⟩ else none
  ports _ := startPort
  devices _ := .quiet
  stray _ := false

-- ---------------------------------------------------------------------------
-- What a thread knows about its device
-- ---------------------------------------------------------------------------

/-- An address that was given out. -/
def Given (maxaddr a : Nat) : Prop := 1 ≤ a ∧ a ≤ maxaddr

/-- The address that `usb_set_address` is about to give out. -/
def Next (maxaddr a : Nat) : Prop := a = maxaddr + 1 ∧ maxaddr < usbMaxaddr

/-- How the device of a port stands to its thread, where no disabling failed. -/
def Agrees (maxaddr : Nat) (port : Port) (device : Device) : Prop :=
  match port.pc with
  | .idle | .noMemory | .detect | .lock | .reset | .resetfail => device = .quiet
  | .allocPipe => device = .default
  | .sendAddress => device = .default ∧ maxaddr < usbMaxaddr
  | .updateAddress => ∃ a, device = .addressed a ∧ Next maxaddr a
  | .disconnect =>
    device = .default ∨ ∃ a, device = .addressed a ∧ (Given maxaddr a ∨ Next maxaddr a)
  | .unlock | .deviceInfo | .updatePipe | .driver | .freePipe =>
    device = .addressed port.devaddr ∧ Given maxaddr port.devaddr
  | .done | .ended =>
    (device = .quiet ∧ port.count = 0) ∨
      device = .addressed port.devaddr ∧ Given maxaddr port.devaddr

/-- Until the device is configured `count` has its first value. -/
def Fresh (port : Port) : Prop :=
  match port.pc with
  | .freePipe | .done | .ended => True
  | _ => port.count = 0

/-- Where a thread may be after its port has not been disabled. -/
def Astray (port : Port) : Prop :=
  match port.pc with
  | .resetfail | .done | .ended => True
  | _ => False

/-- The thread is between `mutex_lock` and `mutex_unlock`. -/
def Holds (port : Port) : Prop :=
  match port.pc with
  | .reset | .allocPipe | .sendAddress | .updateAddress | .disconnect | .resetfail | .unlock =>
    True
  | _ => False

theorem Given.mono (h : Given m a) (hle : m ≤ m') : Given m' a := ⟨h.1, Nat.le_trans h.2 hle⟩

theorem Next.given (h : Next m a) : Given (m + 1) a := by
  obtain ⟨rfl, -⟩ := h
  exact ⟨Nat.le_add_left 1 m, Nat.le_refl _⟩

theorem Agrees.default (h : Agrees maxaddr port .default) : Holds port := by
  unfold Agrees at h
  unfold Holds
  cases hpc : port.pc <;> simp [hpc] at h ⊢

theorem Agrees.addressed (h : Agrees maxaddr port (.addressed a)) :
    Given maxaddr a ∨ Holds port ∧ Next maxaddr a := by
  unfold Agrees at h
  unfold Holds
  cases hpc : port.pc <;> simp [hpc] at h ⊢
  case updateAddress => exact Or.inr h
  case disconnect => exact h
  case unlock => exact Or.inl (h.1 ▸ h.2)
  all_goals exact h.1 ▸ h.2

theorem Agrees.mono (h : Agrees m port device) (hfree : ¬ Holds port) (hle : m ≤ m') :
    Agrees m' port device := by
  unfold Agrees at h ⊢
  unfold Holds at hfree
  cases hpc : port.pc <;> simp only [hpc, not_true_eq_false] at h hfree ⊢
  case deviceInfo | updatePipe | driver | freePipe => exact ⟨h.1, h.2.mono hle⟩
  case done | ended => exact h.imp_right fun h => ⟨h.1, h.2.mono hle⟩
  all_goals exact h

@[simp] theorem freePipe_maxaddr (sh : Shared) (d : Option Nat) :
    (sh.freePipe d).maxaddr = sh.maxaddr := by
  cases d <;> rfl

@[simp] theorem allocPipe_maxaddr (sh : Shared) (ret : Int) :
    (sh.allocPipe ret).1.maxaddr = sh.maxaddr := by
  unfold Shared.allocPipe
  split <;> rfl

@[simp] theorem updatePipe_maxaddr (sh : Shared) (d : Option Nat) (ret : Int) :
    (sh.updatePipe false d ret).1.maxaddr = sh.maxaddr := by
  simp [Shared.updatePipe]

@[simp] theorem addCount_maxaddr (sh : Shared) (count : Int) :
    (sh.addCount count).maxaddr = sh.maxaddr := rfl

@[simp] theorem endThread_maxaddr (sh : Shared) : sh.endThread.maxaddr = sh.maxaddr := rfl

-- ---------------------------------------------------------------------------
-- What a call does
-- ---------------------------------------------------------------------------

/-- What a call of a thread keeps, where `s` is what its port shares with the others. -/
structure Call (maxaddr : Nat) (port : Port) (device : Device) (isLocked : Bool) (sh' : Shared)
    (port' : Port) (device' : Device) (stray : Bool) : Prop where
  maxaddr : sh'.maxaddr = maxaddr ∨ Holds port ∧ sh'.maxaddr = maxaddr + 1
  bound : sh'.maxaddr ≤ usbMaxaddr
  agrees : stray = false → Agrees sh'.maxaddr port' device'
  astray : stray = true → Astray port'
  fresh : Fresh port'
  started : port.pc ≠ .idle
  lock : (Holds port' ↔ Holds port) ∧ sh'.isLocked = isLocked ∨
    isLocked = false ∧ Holds port' ∧ sh'.isLocked = true ∨
    Holds port ∧ ¬ Holds port' ∧ sh'.isLocked = false

attribute [local simp] Holds Fresh Agrees Astray Device.after disableFails in
theorem portStep_call (hbound : sh.maxaddr ≤ usbMaxaddr) (hagrees : Agrees sh.maxaddr port device)
    (hfresh : Fresh port) (h : portStep false sh port ret = some (sh', port')) :
    Call sh.maxaddr port device sh.isLocked sh' port' (device.after port sh.maxaddr ret ok)
      (disableFails port ret ok) := by
  obtain ⟨pc, defpipe, speed, devaddr, count, frees⟩ := port
  cases pc
  case idle | noMemory | ended => cases h
  case detect =>
    obtain rfl : count = 0 := hfresh
    simp only [portStep, Option.some.injEq, Prod.mk.injEq] at h
    obtain ⟨rfl, rfl⟩ := h
    obtain rfl : device = .quiet := hagrees
    split <;> constructor <;> simp [hbound]
  case lock =>
    obtain rfl : count = 0 := hfresh
    simp only [portStep] at h
    split at h
    · cases h
    · rename_i hfree
      cases h
      obtain rfl : device = .quiet := hagrees
      constructor <;> simp [hbound, hfree]
  case reset =>
    obtain rfl : count = 0 := hfresh
    simp only [portStep, Option.some.injEq, Prod.mk.injEq] at h
    obtain ⟨rfl, rfl⟩ := h
    split <;> constructor <;> simp_all
  case allocPipe =>
    obtain rfl : count = 0 := hfresh
    simp only [portStep] at h
    obtain rfl : device = .default := hagrees
    split at h
    · cases h
      constructor <;> simp [hbound]
    · rename_i hroom
      cases h
      have hlt : sh.maxaddr < usbMaxaddr := Nat.lt_of_not_le hroom
      split <;> constructor <;> simp [hbound, hlt]
  case sendAddress =>
    obtain rfl : count = 0 := hfresh
    simp only [portStep] at h
    obtain ⟨rfl, hlt⟩ : device = .default ∧ sh.maxaddr < usbMaxaddr := hagrees
    have hnext : Next sh.maxaddr (sh.maxaddr + 1) := ⟨rfl, hlt⟩
    split at h
    · cases h
      constructor <;> cases ok <;> simp_all
    · cases h
      constructor <;> simp_all
  case updateAddress =>
    obtain rfl : count = 0 := hfresh
    simp only [portStep, Option.some.injEq, Prod.mk.injEq] at h
    obtain ⟨rfl, rfl⟩ := h
    obtain ⟨a, rfl, hnext⟩ : ∃ a, device = .addressed a ∧ Next sh.maxaddr a := hagrees
    have hgiven := hnext.given
    obtain ⟨rfl, hlt⟩ := hnext
    have hwrap : u8 (sh.maxaddr + 1) = sh.maxaddr + 1 := u8_eq (by unfold usbMaxaddr at hlt; omega)
    split <;> constructor <;> simp [hwrap, hgiven] <;> exact hlt
  case disconnect =>
    obtain rfl : count = 0 := hfresh
    simp only [portStep, Option.some.injEq, Prod.mk.injEq] at h
    obtain ⟨rfl, rfl⟩ := h
    constructor <;> cases ok <;> simp [hbound]
  case resetfail =>
    obtain rfl : count = 0 := hfresh
    simp only [portStep, Option.some.injEq, Prod.mk.injEq] at h
    obtain ⟨rfl, rfl⟩ := h
    obtain rfl : device = .quiet := hagrees
    constructor <;> simp [hbound]
  case unlock =>
    obtain rfl : count = 0 := hfresh
    simp only [portStep, Option.some.injEq, Prod.mk.injEq] at h
    obtain ⟨rfl, rfl⟩ := h
    constructor <;> simp_all
  case deviceInfo | driver =>
    obtain rfl : count = 0 := hfresh
    simp only [portStep, Option.some.injEq, Prod.mk.injEq] at h
    obtain ⟨rfl, rfl⟩ := h
    split <;> constructor <;> simp_all
  case updatePipe =>
    obtain rfl : count = 0 := hfresh
    simp only [portStep, Option.some.injEq, Prod.mk.injEq] at h
    obtain ⟨rfl, rfl⟩ := h
    split <;> constructor <;> simp_all
  case freePipe =>
    simp only [portStep, Option.some.injEq, Prod.mk.injEq] at h
    obtain ⟨rfl, rfl⟩ := h
    obtain ⟨rfl, hgiven⟩ : device = .addressed devaddr ∧ Given sh.maxaddr devaddr := hagrees
    rcases eq_or_ne count 0 with rfl | hcount
    · cases ok <;> constructor <;> simp [hbound, hgiven]
    · constructor <;> simp [hcount, hbound, hgiven]
  case done =>
    simp only [portStep, Option.some.injEq, Prod.mk.injEq] at h
    obtain ⟨rfl, rfl⟩ := h
    constructor <;> simp_all

attribute [local simp] Holds Fresh Astray in
theorem portStep_astray (hbound : sh.maxaddr ≤ usbMaxaddr) (hastray : Astray port)
    (hfresh : Fresh port) (h : portStep false sh port ret = some (sh', port')) :
    Call sh.maxaddr port device sh.isLocked sh' port' device' true := by
  obtain ⟨pc, defpipe, speed, devaddr, count, frees⟩ := port
  cases pc <;> simp only [Astray] at hastray
  case ended => cases h
  case resetfail =>
    obtain rfl : count = 0 := hfresh
    simp only [portStep, Option.some.injEq, Prod.mk.injEq] at h
    obtain ⟨rfl, rfl⟩ := h
    constructor <;> simp [hbound]
  case done =>
    simp only [portStep, Option.some.injEq, Prod.mk.injEq] at h
    obtain ⟨rfl, rfl⟩ := h
    constructor <;> simp [hbound]

-- ---------------------------------------------------------------------------
-- What every run keeps
-- ---------------------------------------------------------------------------

/-- The lock is exclusive, and the devices whose ports obey are known by different addresses. -/
structure Inv (s : Bus) : Prop where
  lock : Exclusive s.isLocked fun path => Holds (s.ports path)
  bound : s.maxaddr ≤ usbMaxaddr
  agrees : ∀ path, s.stray path = false → Agrees s.maxaddr (s.ports path) (s.devices path)
  astray : ∀ path, s.stray path = true → Astray (s.ports path)
  fresh : ∀ path, Fresh (s.ports path)
  distinct : ∀ path path' a, s.stray path = false → s.stray path' = false →
    s.devices path = .addressed a → s.devices path' = .addressed a → path = path'
  -- a thread runs on a hub that is enumerated
  parent : ∀ i hub, (s.ports (i :: hub)).pc ≠ .idle → s.hubs hub ≠ none
  launched : ∀ i hub v, s.hubs hub = some v → v.i ≤ i → (s.ports (i :: hub)).pc = .idle
  root : (s.ports []).pc = .idle

theorem start_inv (portcount : Nat) : Inv (start portcount) where
  lock := exclusive_free fun _ => id
  bound := Nat.zero_le _
  agrees _ _ := rfl
  astray _ h := nomatch h
  fresh _ := rfl
  distinct _ _ _ _ _ h := nomatch h
  parent _ _ h := absurd rfl h
  launched _ _ _ _ _ := rfl
  root := rfl

theorem after_addressed (h : Device.after port maxaddr ret ok device = .addressed a) :
    device = .addressed a ∨ Holds port ∧ a = maxaddr + 1 := by
  unfold Device.after at h
  unfold Holds
  cases hpc : port.pc <;> simp only [hpc] at h ⊢
  case reset => split at h <;> exact nomatch h
  case sendAddress =>
    split at h
    · exact Or.inr ⟨trivial, (Device.addressed.inj h).symm⟩
    · exact Or.inl h
  case disconnect | freePipe =>
    split at h
    · exact nomatch h
    · exact Or.inl h
  all_goals exact Or.inl h

theorem Inv.after_apart (h : Inv s) (hne : path' ≠ path) (hstray : s.stray path = false)
    (hstray' : s.stray path' = false)
    (hafter : (s.devices path).after (s.ports path) s.maxaddr ret ok = .addressed a) :
    s.devices path' ≠ .addressed a := by
  intro ha
  rcases after_addressed hafter with hsame | ⟨hholds, rfl⟩
  · exact hne (h.distinct path' path a hstray' hstray ha hsame)
  · have hagrees := h.agrees path' hstray'
    rw [ha] at hagrees
    rcases hagrees.addressed with hgiven | ⟨hother, -⟩
    · exact Nat.not_succ_le_self _ hgiven.2
    · exact h.lock.others hholds hne hother

theorem Inv.portCall (h : Inv s) (hhub : s.hubs hub = some v)
    (hcall : s.portCall v i hub ret ok = some t) : Inv t := by
  obtain ⟨⟨sh, port⟩, hstep, rfl⟩ := Option.map_eq_some_iff.mp hcall
  have hbound : (s.shared v).maxaddr ≤ usbMaxaddr := h.bound
  have hkeeps : Call s.maxaddr (s.ports (i :: hub)) (s.devices (i :: hub)) s.isLocked sh port
      ((s.devices (i :: hub)).after (s.ports (i :: hub)) s.maxaddr ret ok)
      (s.stray (i :: hub) || disableFails (s.ports (i :: hub)) ret ok) := by
    cases hstray : s.stray (i :: hub) with
    | true =>
      exact portStep_astray hbound (h.astray _ hstray) (h.fresh _) hstep
    | false =>
      exact portStep_call hbound (h.agrees _ hstray) (h.fresh _) hstep
  have hle : s.maxaddr ≤ sh.maxaddr := by
    rcases hkeeps.maxaddr with heq | ⟨-, heq⟩ <;> rw [heq]
    exact Nat.le_succ _
  constructor
  case lock =>
    have hsame (path : List Nat) (hne : path ≠ i :: hub) :
        Holds (Function.update s.ports (i :: hub) port path) ↔ Holds (s.ports path) := by
      rw [Function.update_of_ne hne]
    have hself : Function.update s.ports (i :: hub) port (i :: hub) = port :=
      Function.update_self ..
    rcases hkeeps.lock with ⟨hholds, heq⟩ | ⟨hfree, hholds, heq⟩ | ⟨hholds, hout, heq⟩
    · simp only [heq]
      refine h.lock.keep fun path => ?_
      rcases eq_or_ne path (i :: hub) with rfl | hne
      · rwa [hself]
      · exact hsame path hne
    · simp only [heq]
      exact (hfree ▸ h.lock).acquire (hself.symm ▸ hholds) hsame
    · simp only [heq]
      exact h.lock.release hholds (hself.symm ▸ hout) hsame
  case bound => exact hkeeps.bound
  case agrees =>
    intro path hstray
    rcases eq_or_ne path (i :: hub) with rfl | hne
    · simp only [Function.update_self] at hstray ⊢
      exact hkeeps.agrees hstray
    · simp only [Function.update_of_ne hne] at hstray ⊢
      rcases hkeeps.maxaddr with heq | ⟨hholds, heq⟩
      · rw [heq]
        exact h.agrees path hstray
      · exact (h.agrees path hstray).mono (h.lock.others hholds hne) hle
  case astray =>
    intro path hstray
    rcases eq_or_ne path (i :: hub) with rfl | hne
    · simp only [Function.update_self] at hstray ⊢
      exact hkeeps.astray hstray
    · simp only [Function.update_of_ne hne] at hstray ⊢
      exact h.astray path hstray
  case fresh =>
    intro path
    rcases eq_or_ne path (i :: hub) with rfl | hne
    · simp only [Function.update_self]
      exact hkeeps.fresh
    · simp only [Function.update_of_ne hne]
      exact h.fresh path
  case distinct =>
    intro path path' a hstray hstray' ha ha'
    by_contra hne
    rcases eq_or_ne path (i :: hub) with rfl | hpath
    · have hother : path' ≠ i :: hub := Ne.symm hne
      simp only [Function.update_self, Bool.or_eq_false_iff] at hstray ha
      simp only [Function.update_of_ne hother] at hstray' ha'
      exact h.after_apart hother hstray.1 hstray' ha ha'
    · simp only [Function.update_of_ne hpath] at hstray ha
      rcases eq_or_ne path' (i :: hub) with rfl | hpath'
      · simp only [Function.update_self, Bool.or_eq_false_iff] at hstray' ha'
        exact h.after_apart hpath hstray'.1 hstray ha' ha
      · simp only [Function.update_of_ne hpath'] at hstray' ha'
        exact hne (h.distinct path path' a hstray hstray' ha ha')
  case parent =>
    intro i' hub' hidle
    rcases eq_or_ne hub' hub with rfl | hne
    · simp only [Function.update_self]
      nofun
    · have hpath : i' :: hub' ≠ i :: hub := fun heq => hne (List.cons.inj heq).2
      simp only [Function.update_of_ne hne]
      simp only [Function.update_of_ne hpath] at hidle
      exact h.parent i' hub' hidle
  case launched =>
    intro i' hub' w hw hi
    have hpath : i' :: hub' ≠ i :: hub := by
      intro heq
      obtain ⟨rfl, rfl⟩ := List.cons.inj heq
      simp only [Function.update_self, Option.some.injEq] at hw
      subst hw
      exact hkeeps.started (h.launched _ _ v hhub hi)
    simp only [Function.update_of_ne hpath]
    rcases eq_or_ne hub' hub with rfl | hne
    · simp only [Function.update_self, Option.some.injEq] at hw
      subst hw
      exact h.launched _ _ v hhub hi
    · simp only [Function.update_of_ne hne] at hw
      exact h.launched _ _ w hw hi
  case root => exact h.root

theorem Inv.malloc (h : Inv s) (hhub : s.hubs hub = some v) {pc : Pc}
    (hpc : pc = .detect ∨ pc = .noMemory) :
    Inv { s with
      hubs := Function.update s.hubs hub (some { v with i := v.i + 1 })
      ports := Function.update s.ports (v.i :: hub) { s.ports (v.i :: hub) with pc := pc } } := by
  have hidle := h.launched v.i hub v hhub (Nat.le_refl _)
  have hsame {P : Port → Prop}
      (hold : P (s.ports (v.i :: hub)) → P { s.ports (v.i :: hub) with pc := pc })
      (path : List Nat) (hP : P (s.ports path)) :
      P (Function.update s.ports (v.i :: hub) { s.ports (v.i :: hub) with pc := pc } path) := by
    rcases eq_or_ne path (v.i :: hub) with rfl | hne
    · rw [Function.update_self]
      exact hold hP
    · rwa [Function.update_of_ne hne]
  constructor
  case lock =>
    refine h.lock.keep fun path => ?_
    rcases eq_or_ne path (v.i :: hub) with rfl | hne
    · simp only [Function.update_self]
      rcases hpc with rfl | rfl <;> simp [Holds, hidle]
    · simp only [Function.update_of_ne hne]
  case bound => exact h.bound
  case agrees =>
    intro path hstray
    refine hsame (P := fun port => Agrees s.maxaddr port (s.devices path)) ?_ path
      (h.agrees path hstray)
    rcases hpc with rfl | rfl <;> simp [Agrees, hidle]
  case astray =>
    intro path hstray
    refine hsame (P := Astray) ?_ path (h.astray path hstray)
    simp [Astray, hidle]
  case fresh =>
    intro path
    refine hsame (P := Fresh) ?_ path (h.fresh path)
    rcases hpc with rfl | rfl <;> simp [Fresh, hidle]
  case distinct => exact h.distinct
  case parent =>
    intro i hub' hstarted
    rcases eq_or_ne hub' hub with rfl | hne
    · simp only [Function.update_self]
      nofun
    · have hpath : i :: hub' ≠ v.i :: hub := fun heq => hne (List.cons.inj heq).2
      simp only [Function.update_of_ne hne]
      simp only [Function.update_of_ne hpath] at hstarted
      exact h.parent i hub' hstarted
  case launched =>
    intro i hub' w hw hi
    rcases eq_or_ne hub' hub with rfl | hne
    · simp only [Function.update_self, Option.some.injEq] at hw
      subst hw
      have hpath : i :: hub' ≠ v.i :: hub' := fun heq => Nat.ne_of_gt hi (List.cons.inj heq).1
      simp only [Function.update_of_ne hpath]
      exact h.launched i hub' v hhub (Nat.le_of_succ_le hi)
    · have hpath : i :: hub' ≠ v.i :: hub := fun heq => hne (List.cons.inj heq).2
      simp only [Function.update_of_ne hne] at hw
      simp only [Function.update_of_ne hpath]
      exact h.launched i hub' w hw hi
  case root => exact h.root

theorem Inv.setup (h : Inv s) (hpc : (s.ports path).pc = .driver) (hnone : s.hubs path = none)
    (portcount : Nat) :
    Inv { s with hubs := Function.update s.hubs path (some ⟨portcount, portcount, 0, 0⟩) } where
  lock := h.lock
  bound := h.bound
  agrees := h.agrees
  astray := h.astray
  fresh := h.fresh
  distinct := h.distinct
  parent i hub hstarted := by
    rcases eq_or_ne hub path with rfl | hne
    · exact absurd hnone (h.parent i hub hstarted)
    · simp only [Function.update_of_ne hne]
      exact h.parent i hub hstarted
  launched i hub w hw hi := by
    rcases eq_or_ne hub path with rfl | hne
    · by_contra hstarted
      exact h.parent i hub hstarted hnone
    · simp only [Function.update_of_ne hne] at hw
      exact h.launched i hub w hw hi
  root := h.root

theorem port_eq_some (hstep : step s (.port i hub ret ok) = some t) :
    ∃ v, s.hubs hub = some v ∧ s.portCall v i hub ret ok = some t := by
  obtain ⟨v, hv, hcall⟩ := Option.bind_eq_some_iff.mp hstep
  refine ⟨v, hv, ?_⟩
  split at hcall
  · split at hcall
    · exact hcall
    · exact nomatch hcall
  · exact hcall

theorem Inv.step (h : Inv s) (hstep : UsbAddress.step s a = some t) : Inv t := by
  cases a with
  | setup path portcount =>
    simp only [UsbAddress.step] at hstep
    split at hstep
    case isFalse => exact nomatch hstep
    case isTrue hready =>
      cases hstep
      exact h.setup hready.1 (Option.isNone_iff_eq_none.mp hready.2) portcount
  | malloc hub ok =>
    obtain ⟨v, hv, hcall⟩ := Option.bind_eq_some_iff.mp hstep
    simp only at hcall
    split at hcall
    case isFalse => exact nomatch hcall
    case isTrue =>
      cases hcall
      refine h.malloc hv ?_
      cases ok
      · exact Or.inr rfl
      · exact Or.inl rfl
  | port i hub ret ok =>
    obtain ⟨v, hv, hcall⟩ := port_eq_some hstep
    exact h.portCall hv hcall

theorem Inv.run (h : Inv s) (hrun : UsbAddress.run s acts = some t) : Inv t := by
  induction acts generalizing s with
  | nil =>
    cases hrun
    exact h
  | cons a acts ih =>
    obtain ⟨u, hu, hrun⟩ := Option.bind_eq_some_iff.mp hrun
    exact ih (h.step hu) hrun

-- ---------------------------------------------------------------------------
-- The lock is released
-- ---------------------------------------------------------------------------

/-- The calls of one thread, whatever they return. -/
def callsOf (i : Nat) (hub : List Nat) (outcomes : List (Int × Bool)) : List Act :=
  outcomes.map fun o => .port i hub o.1 o.2

theorem portStep_holds (hholds : Holds port) (sh : Shared) (ret : Int) :
    ∃ r, portStep false sh port ret = some r := by
  unfold Holds at hholds
  unfold portStep
  cases hpc : port.pc <;> simp only [hpc] at hholds ⊢
  case allocPipe => split <;> exact ⟨_, rfl⟩
  case sendAddress => split <;> exact ⟨_, rfl⟩
  all_goals exact ⟨_, rfl⟩

theorem Holds.step (h : Inv s) (hholds : Holds (s.ports (i :: hub))) (ret : Int) (ok : Bool) :
    ∃ t, UsbAddress.step s (.port i hub ret ok) = some t := by
  have hidle : (s.ports (i :: hub)).pc ≠ .idle := by
    intro hidle
    simp only [Holds, hidle] at hholds
  obtain ⟨v, hv⟩ := Option.ne_none_iff_exists'.mp (h.parent i hub hidle)
  obtain ⟨r, hr⟩ := portStep_holds hholds (s.shared v) ret
  have hcall : ∃ t, s.portCall v i hub ret ok = some t := ⟨_, by rw [Bus.portCall, hr]; rfl⟩
  have hdriver : (s.ports (i :: hub)).pc ≠ .driver := by
    intro hdriver
    simp only [Holds, hdriver] at hholds
  simp only [UsbAddress.step, hv, Option.bind_some]
  split
  · exact absurd ‹_› hdriver
  · exact hcall

/-- A bound on the calls until the lock is released. -/
def callsLeft (port : Port) : Nat :=
  match port.pc with
  | .reset => 6
  | .allocPipe => 5
  | .sendAddress => 4
  | .updateAddress => 3
  | .disconnect => 2
  | .resetfail | .unlock => 1
  | _ => 0

theorem Holds.callsLeft (hholds : Holds port) :
    1 ≤ UsbAddress.callsLeft port ∧ UsbAddress.callsLeft port ≤ 6 := by
  unfold Holds at hholds
  unfold UsbAddress.callsLeft
  cases hpc : port.pc <;> simp [hpc] at hholds ⊢

theorem portStep_closer (hholds : Holds port) (h : portStep false sh port ret = some (sh', port')) :
    sh'.isLocked = false ∨ Holds port' ∧ callsLeft port' < callsLeft port := by
  unfold Holds at hholds
  unfold portStep at h
  unfold Holds callsLeft
  cases hpc : port.pc <;> simp only [hpc] at hholds h ⊢
  case reset =>
    cases h
    rcases Int.lt_or_le ret 0 with hret | hret
    · simp [hret]
    · simp [Int.not_lt.mpr hret]
  case allocPipe =>
    split at h <;> cases h
    · simp
    · cases hpipe : (sh.allocPipe ret).2 <;> simp
  case sendAddress => split at h <;> cases h <;> simp
  case updateAddress =>
    simp only [Option.some.injEq, Prod.mk.injEq] at h
    obtain ⟨-, rfl⟩ := h
    generalize Shared.updatePipe _ _ _ _ = r
    cases r.2 <;> simp
  case disconnect =>
    cases h
    simp
  case resetfail | unlock =>
    cases h
    exact Or.inl rfl

theorem Inv.releases (h : Inv s) (hholds : Holds (s.ports (i :: hub)))
    (outcomes : List (Int × Bool)) (hlong : callsLeft (s.ports (i :: hub)) ≤ outcomes.length) :
    ∃ k t, UsbAddress.run s (callsOf i hub (outcomes.take k)) = some t ∧ t.isLocked = false := by
  induction outcomes generalizing s with
  | nil => exact absurd (Nat.le_trans hholds.callsLeft.1 hlong) (by decide)
  | cons o outcomes ih =>
    obtain ⟨t, ht⟩ := Holds.step h hholds o.1 o.2
    obtain ⟨v, -, hcall⟩ := port_eq_some ht
    obtain ⟨⟨sh, port⟩, hstep, hbus⟩ := Option.map_eq_some_iff.mp hcall
    rcases portStep_closer hholds hstep with hfree | ⟨hstill, hless⟩
    · refine ⟨1, t, ?_, hbus ▸ hfree⟩
      simp only [callsOf, List.take_succ_cons, List.take_zero, List.map_cons, List.map_nil,
        UsbAddress.run, ht, Option.bind_some]
    · have hless' : callsLeft port ≤ outcomes.length :=
        Nat.le_of_lt_succ (Nat.lt_of_lt_of_le hless hlong)
      obtain ⟨k, u, hrun, hfree⟩ := ih (h.step ht) (by simpa [← hbus] using hstill)
        (by simpa [← hbus] using hless')
      refine ⟨k + 1, u, ?_, hfree⟩
      simp only [callsOf, List.take_succ_cons, List.map_cons, UsbAddress.run, ht, Option.bind_some]
      exact hrun

/-- What the hubs of a controller owe to its devices. -/
structure AddressesRight (s : Bus) : Prop where
  oneDefault : ∀ path path', s.stray path = false → s.stray path' = false →
    s.devices path = .default → s.devices path' = .default → path = path'
  locked : ∀ path, s.stray path = false → s.devices path = .default → s.isLocked = true
  inRange : ∀ path a, s.stray path = false → s.devices path = .addressed a →
    1 ≤ a ∧ a ≤ usbMaxaddr
  distinct : ∀ path path' a, s.stray path = false → s.stray path' = false →
    s.devices path = .addressed a → s.devices path' = .addressed a → path = path'
  configured : ∀ path, s.stray path = false → (s.ports path).count = 1 →
    s.devices path = .addressed (s.ports path).devaddr
  exclusive : ∀ path path', Holds (s.ports path) → Holds (s.ports path') → path = path'
  releases : s.isLocked = true → ∃ i hub, Holds (s.ports (i :: hub)) ∧
    ∀ outcomes : List (Int × Bool), 6 ≤ outcomes.length →
      ∃ k t, UsbAddress.run s (callsOf i hub (outcomes.take k)) = some t ∧ t.isLocked = false

theorem Inv.right (h : Inv s) : AddressesRight s := by
  constructor
  case oneDefault =>
    intro path path' hstray hstray' hd hd'
    have hagrees := h.agrees path hstray
    have hagrees' := h.agrees path' hstray'
    rw [hd] at hagrees
    rw [hd'] at hagrees'
    exact h.lock.unique path path' hagrees.default hagrees'.default
  case locked =>
    intro path hstray hd
    have hagrees := h.agrees path hstray
    rw [hd] at hagrees
    exact h.lock.held hagrees.default
  case inRange =>
    intro path a hstray ha
    have hagrees := h.agrees path hstray
    rw [ha] at hagrees
    rcases hagrees.addressed with hgiven | ⟨-, rfl, hlt⟩
    · exact ⟨hgiven.1, Nat.le_trans hgiven.2 h.bound⟩
    · exact ⟨Nat.le_add_left 1 _, hlt⟩
  case distinct => exact h.distinct
  case configured =>
    intro path hstray hcount
    have hagrees := h.agrees path hstray
    have hfresh := h.fresh path
    unfold Agrees at hagrees
    unfold Fresh at hfresh
    cases hpc : (s.ports path).pc <;> simp [hpc, hcount] at hagrees hfresh <;> exact hagrees.1
  case exclusive => exact h.lock.unique
  case releases =>
    intro hlocked
    obtain ⟨path, hholds⟩ := h.lock.locked_iff.mp hlocked
    cases path with
    | nil =>
      simp only [Holds, h.root] at hholds
    | cons i hub =>
      exact ⟨i, hub, hholds, fun outcomes hlong =>
        h.releases hholds outcomes (Nat.le_trans hholds.callsLeft.2 hlong)⟩

/-- In every run the devices whose ports obeyed have addresses of their own, one at a time is at
the default address, and the lock comes back. -/
theorem addresses_right (portcount : Nat) (hrun : run (start portcount) acts = some s) :
    AddressesRight s :=
  ((start_inv portcount).run hrun).right

/-- A hub at port 0 with one port, while port 1 fails to be reset and to be disabled. -/
def nestedHub : List Act :=
  [.malloc [] true, .malloc [] true] ++
    callsOf 0 [] [(0, true), (0, true), (1, true), (0, true), (0, true), (0, true), (0, true)] ++
    callsOf 1 [] [(0, true), (0, true)] ++ callsOf 0 [] [(0, true), (0, true)] ++
    [.setup [0] 1, .malloc [0] true] ++ callsOf 0 [0] [(0, true)] ++
    callsOf 1 [] [(-1, false), (0, true)] ++
    callsOf 0 [0] [(0, true), (2, true), (0, true), (0, true), (0, true), (0, true)]

theorem nestedHub_runs : (run (start 2) nestedHub).isSome = true := by decide +kernel

theorem addresses_right_nestedHub : AddressesRight ((run (start 2) nestedHub).get nestedHub_runs) :=
  addresses_right 2 (Option.some_get _).symm

example : ((run (start 2) nestedHub).get nestedHub_runs).devices [0, 0] = .addressed 2 := by
  decide +kernel

end ItxLlama.Seabios.UsbAddress
