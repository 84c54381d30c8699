import ItxLlama.Seabios.Ps2Port

/-!
# The bracket around a PS/2 command

A run of the code leaves a record. `Ran` says what any record obeys: the
command byte is what the record makes of it, the output buffer is a one-place
mailbox, a byte enters only through a port that is on, and only a keyboard
handler with the keyboard interrupt on turns a port on out of turn. The rest
is which events a function can add.
-/

namespace ItxLlama.Seabios.Ps2

open Lib.Bytes (Byte)
open Lib.Mailbox (Act Moves puts gets)

/-- The command byte after an event. -/
def ctrStep (ctr : Byte) : Event → Byte
  | .wctr v => v
  | .kbdEnable => ctr &&& ~~~i8042CtrKbddis
  | _ => ctr

def ctrAfter (ctr : Byte) (ev : List Event) : Byte := ev.foldl ctrStep ctr

/-- What an event does to the output buffer. -/
def Event.act : Event → Option (Act (Bool × Byte))
  | .load aux b => some (.put (aux, b))
  | .read _ aux b => some (.get (aux, b))
  | _ => none

/-- The content of the output buffer. -/
def Port.slot (s : Port) : Option (Bool × Byte) := if s.obf then some (s.aux, s.data) else none

/-- Bytes enter only through ports that are on. -/
def LoadsEnabled : Byte → List Event → Prop
  | _, [] => True
  | ctr, e :: ev => (∀ aux b, e = .load aux b → ¬ Disabled aux ctr) ∧
    LoadsEnabled (ctrStep ctr e) ev

/-- What the code does between two states, as the record has it. -/
structure Ran (s : Port) (ev : List Event) (s' : Port) : Prop where
  trace : s'.trace = s.trace ++ ev
  ps2ctr : s'.ps2ctr = s.ps2ctr
  ctr : s'.ctr = ctrAfter s.ctr ev
  buffer : Moves s.slot (ev.filterMap Event.act) s'.slot
  loads : LoadsEnabled s.ctr ev
  enables : .kbdEnable ∈ ev → s.ps2ctr &&& i8042CtrKbdint ≠ 0

theorem loadsEnabled_append {ctr : Byte} {ev ev' : List Event} :
    LoadsEnabled ctr (ev ++ ev') ↔ LoadsEnabled ctr ev ∧ LoadsEnabled (ctrAfter ctr ev) ev' := by
  induction ev generalizing ctr with
  | nil => simp [LoadsEnabled, ctrAfter]
  | cons e ev ih => simp [LoadsEnabled, ctrAfter, ih, and_assoc]

theorem Ran.refl (s : Port) : Ran s [] s where
  trace := (List.append_nil _).symm
  ps2ctr := rfl
  ctr := rfl
  buffer := .refl _
  loads := trivial
  enables h := by cases h

theorem Ran.trans (h : Ran s ev s') (h' : Ran s' ev' s'') : Ran s (ev ++ ev') s'' where
  trace := by rw [h'.trace, h.trace, List.append_assoc]
  ps2ctr := h'.ps2ctr.trans h.ps2ctr
  ctr := by rw [h'.ctr, h.ctr, ctrAfter, ctrAfter, ctrAfter, List.foldl_append]
  buffer := by
    rw [List.filterMap_append]
    exact h.buffer.append h'.buffer
  loads := loadsEnabled_append.mpr ⟨h.loads, h.ctr ▸ h'.loads⟩
  enables hmem := by
    rcases List.mem_append.mp hmem with hmem | hmem
    · exact h.enables hmem
    · exact h.ps2ctr ▸ h'.enables hmem

theorem Ran.tick (h : Ran s.tick ev s') : Ran s ev s' := ⟨h.1, h.2, h.3, h.4, h.5, h.6⟩

-- ---------------------------------------------------------------------------
-- The accesses
-- ---------------------------------------------------------------------------

theorem ran_offer (s : Port) (x : Bool × Byte) :
    ∃ ev, Ran s ev (s.offer x) ∧ ∀ e ∈ ev, ∃ aux b, e = .load aux b := by
  unfold Port.offer
  split
  · exact ⟨[], .refl s, by simp⟩
  · next h =>
    rw [not_or] at h
    obtain ⟨hobf, hon⟩ := h
    refine ⟨[.load x.1 x.2], ⟨rfl, rfl, rfl, ?_, ?_, by simp⟩, by simp⟩
    · have hslot : s.slot = none := if_neg hobf
      rw [hslot]
      exact .put (.refl _)
    · refine ⟨fun aux b h => ?_, trivial⟩
      cases h
      exact hon

theorem ran_settle (env : Env) (s : Port) :
    ∃ ev, Ran s ev (s.settle env) ∧ ∀ e ∈ ev, ∃ aux b, e = .load aux b := by
  have hoffers : ∀ (l : List (Bool × Byte)) (s : Port),
      ∃ ev, Ran s ev (l.foldl Port.offer s) ∧ ∀ e ∈ ev, ∃ aux b, e = .load aux b := by
    intro l
    induction l with
    | nil => exact fun s => ⟨[], .refl s, by simp⟩
    | cons x l ih =>
      intro s
      obtain ⟨ev, hran, hev⟩ := ran_offer s x
      obtain ⟨ev', hran', hev'⟩ := ih (s.offer x)
      refine ⟨ev ++ ev', hran.trans hran', fun e he => ?_⟩
      rcases List.mem_append.mp he with he | he
      · exact hev e he
      · exact hev' e he
  obtain ⟨ev, hran, hev⟩ := hoffers (env.bytes s.now) s.tick
  exact ⟨ev, hran.tick, hev⟩

theorem ran_inbData (by_ : Reader) (s : Port) :
    Ran s (if s.obf then [.read by_ s.aux s.data] else []) (s.inbData by_) := by
  unfold Port.inbData
  split
  · next h =>
    refine ⟨rfl, rfl, rfl, ?_, ⟨fun aux b h => (nomatch h), trivial⟩, by simp⟩
    have hslot : s.slot = some (s.aux, s.data) := if_pos h
    rw [hslot]
    exact .get (.refl _)
  · exact .refl s

theorem ran_write (env : Env) (aux : Bool) (b : Byte) (s : Port) :
    ∃ ev, Ran s (ev ++ [.send aux b]) (s.write env aux b) ∧ ∀ e ∈ ev, ∃ aux b, e = .load aux b := by
  obtain ⟨ev, hran, hev⟩ := ran_settle env s
  refine ⟨ev, hran.trans ⟨rfl, rfl, rfl, .refl _, ?_, by simp⟩, hev⟩
  exact ⟨fun aux b h => (nomatch h), trivial⟩

theorem ran_wctr (env : Env) (v : Byte) (s : Port) :
    ∃ ev, Ran s (ev ++ [.wctr v]) (s.wctr env v) ∧ ∀ e ∈ ev, ∃ aux b, e = .load aux b := by
  obtain ⟨ev, hran, hev⟩ := ran_settle env s
  refine ⟨ev, hran.trans ⟨rfl, rfl, rfl, .refl _, ?_, by simp⟩, hev⟩
  exact ⟨fun aux b h => (nomatch h), trivial⟩

theorem ran_kbdEnable (env : Env) {s : Port} (hint : s.ps2ctr &&& i8042CtrKbdint ≠ 0) :
    ∃ ev, Ran s (ev ++ [.kbdEnable]) (s.kbdEnable env) ∧ ∀ e ∈ ev, ∃ aux b, e = .load aux b := by
  obtain ⟨ev, hran, hev⟩ := ran_settle env s
  refine ⟨ev, hran.trans ⟨rfl, rfl, rfl, .refl _, ?_, fun _ => ?_⟩, hev⟩
  · exact ⟨fun aux b h => (nomatch h), trivial⟩
  · rw [hran.ps2ctr]
    exact hint

-- ---------------------------------------------------------------------------
-- The events of a wait
-- ---------------------------------------------------------------------------

/-- An event that a wait for a byte can see: nothing goes out. -/
def Event.isWait : Event → Bool
  | .wctr _ | .send _ _ => false
  | _ => true

/-- The byte that the command takes from the port's device. -/
def Event.cmdRead (aux : Bool) : Event → Option Byte
  | .read .command aux' b => if aux' = aux then some b else none
  | _ => none

def cmdReads (aux : Bool) (ev : List Event) : List Byte := ev.filterMap (Event.cmdRead aux)

/-- The events of the devices and the handlers. -/
def Quiet (ev : List Event) : Prop := ∀ e ∈ ev, e.isWait = true ∧ ∀ aux, e.cmdRead aux = none

theorem quiet_of_loads {ev : List Event} (h : ∀ e ∈ ev, ∃ aux b, e = .load aux b) : Quiet ev := by
  intro e he
  obtain ⟨aux, b, rfl⟩ := h e he
  exact ⟨rfl, fun _ => rfl⟩

theorem Quiet.append (h : Quiet ev) (h' : Quiet ev') : Quiet (ev ++ ev') := by
  intro e he
  rcases List.mem_append.mp he with he | he
  · exact h e he
  · exact h' e he

theorem Quiet.cmdReads (h : Quiet ev) (aux : Bool) : cmdReads aux ev = [] :=
  List.filterMap_eq_nil_iff.mpr fun e he => (h e he).2 aux

theorem quiet_inbData (s : Port) :
    Quiet (if s.obf then [.read .handler s.aux s.data] else []) := by
  split
  · intro e he
    rw [List.mem_singleton] at he
    subst he
    exact ⟨rfl, fun _ => rfl⟩
  · intro e he
    cases he

theorem ran_handle74 (env : Env) (s : Port) : ∃ ev, Ran s ev (handle74 env s) ∧ Quiet ev := by
  obtain ⟨ev, hran, hev⟩ := ran_settle env s
  unfold handle74
  dsimp only
  split
  · exact ⟨_, hran.trans (ran_inbData .handler _), (quiet_of_loads hev).append (quiet_inbData _)⟩
  · exact ⟨ev, hran, quiet_of_loads hev⟩

theorem ran_handle09 (env : Env) (s : Port) : ∃ ev, Ran s ev (handle09 env s) ∧ Quiet ev := by
  obtain ⟨ev, hran, hev⟩ := ran_settle env s
  obtain ⟨ev', hran', hev'⟩ := ran_settle env (s.settle env)
  unfold handle09
  dsimp only
  split
  · exact ⟨ev, hran, quiet_of_loads hev⟩
  have hread := (hran.trans hran').trans (ran_inbData .handler _)
  have hquiet := ((quiet_of_loads hev).append (quiet_of_loads hev')).append
    (quiet_inbData ((s.settle env).settle env))
  split
  · exact ⟨_, hread, hquiet⟩
  · next hint =>
    obtain ⟨ev'', hran'', hev''⟩ := ran_kbdEnable env hint
    refine ⟨_, hread.trans hran'', hquiet.append ((quiet_of_loads hev'').append ?_)⟩
    intro e he
    rw [List.mem_singleton] at he
    subst he
    exact ⟨rfl, fun _ => rfl⟩

theorem ran_yield (env : Env) (s : Port) : ∃ ev, Ran s ev (s.yield env) ∧ Quiet ev := by
  have hirqs : ∀ (l : List Irq) (s : Port),
      ∃ ev, Ran s ev (l.foldl (irqHandler env) s) ∧ Quiet ev := by
    intro l
    induction l with
    | nil => exact fun s => ⟨[], .refl s, by simp [Quiet]⟩
    | cons irq l ih =>
      intro s
      have hone : ∃ ev, Ran s ev (irqHandler env s irq) ∧ Quiet ev := by
        cases irq with
        | irq1 => exact ran_handle09 env s
        | irq12 => exact ran_handle74 env s
      obtain ⟨ev, hran, hev⟩ := hone
      obtain ⟨ev', hran', hev'⟩ := ih (irqHandler env s irq)
      exact ⟨_, hran.trans hran', hev.append hev'⟩
  obtain ⟨ev, hran, hev⟩ := hirqs (env.irqs s.now) s.tick
  exact ⟨ev, hran.tick, hev⟩

-- ---------------------------------------------------------------------------
-- Receiving
-- ---------------------------------------------------------------------------

/-- What a wait for a byte adds: the byte it returns is the last event, and
without `needack` the first byte the command takes from the device. -/
inductive Received (aux needack : Bool) : Option Byte → List Event → Prop where
  | timeout (wait : ∀ e ∈ ev, e.isWait = true) (skipped : needack = false → cmdReads aux ev = []) :
    Received aux needack none ev
  | byte (wait : ∀ e ∈ ev, e.isWait = true) (skipped : needack = false → cmdReads aux ev = [])
      (b : Byte) : Received aux needack (some b) (ev ++ [.read .command aux b])

theorem cmdReads_append (aux : Bool) (ev ev' : List Event) :
    cmdReads aux (ev ++ ev') = cmdReads aux ev ++ cmdReads aux ev' := List.filterMap_append

theorem Received.after (h : Received aux needack r ev) (wait : ∀ e ∈ ev₀, e.isWait = true)
    (skipped : needack = false → cmdReads aux ev₀ = []) : Received aux needack r (ev₀ ++ ev) := by
  have hwait {ev' : List Event} (h : ∀ e ∈ ev', e.isWait = true) :
      ∀ e ∈ ev₀ ++ ev', e.isWait = true := by
    intro e he
    rcases List.mem_append.mp he with he | he
    · exact wait e he
    · exact h e he
  cases h with
  | timeout hw hs =>
    refine .timeout (hwait hw) fun hna => ?_
    rw [cmdReads_append, skipped hna, hs hna, List.append_nil]
  | byte hw hs b =>
    rw [← List.append_assoc]
    refine .byte (hwait hw) (fun hna => ?_) b
    rw [cmdReads_append, skipped hna, hs hna, List.append_nil]

theorem Received.wait (h : Received aux needack r ev) : ∀ e ∈ ev, e.isWait = true := by
  cases h with
  | timeout hw => exact hw
  | byte hw hs b =>
    intro e he
    rcases List.mem_append.mp he with he | he
    · exact hw e he
    · rw [List.mem_singleton] at he
      subst he
      rfl

theorem recvPoll_spec (env : Env) (aux needack : Bool) (s : Port) :
    ∃ ev, Ran s ev (recvPoll env aux needack s).2 ∧
      Received aux needack (recvPoll env aux needack s).1 ev := by
  obtain ⟨ev, hran, hloads⟩ := ran_settle env s
  have hquiet := quiet_of_loads hloads
  have hwait : ∀ e ∈ ev, e.isWait = true := fun e he => (hquiet e he).1
  unfold recvPoll
  dsimp only
  split
  · next hobf =>
    have hread := ran_inbData .command (s.settle env)
    rw [if_pos hobf] at hread
    split
    · next hmine =>
      obtain ⟨haux, -⟩ := hmine
      rw [haux] at hread
      exact ⟨_, hran.trans hread, .byte hwait (fun _ => hquiet.cmdReads aux) _⟩
    · next hother =>
      refine ⟨_, hran.trans hread, .timeout ?_ fun hna => ?_⟩
      · intro e he
        rcases List.mem_append.mp he with he | he
        · exact hwait e he
        · rw [List.mem_singleton] at he
          subst he
          rfl
      · have haux : (s.settle env).aux ≠ aux := fun haux => hother ⟨haux, .inl hna⟩
        rw [cmdReads_append, hquiet.cmdReads aux]
        simp [cmdReads, Event.cmdRead, haux]
  · exact ⟨ev, hran, .timeout hwait fun _ => hquiet.cmdReads aux⟩

theorem recvLoop_spec (env : Env) (aux needack : Bool) (n : Nat) (s : Port) :
    ∃ ev, Ran s ev (recvLoop env aux needack n s).2 ∧
      Received aux needack (recvLoop env aux needack n s).1 ev := by
  induction n generalizing s with
  | zero => exact recvPoll_spec env aux needack s
  | succ n ih =>
    obtain ⟨ev, hran, hrecv⟩ := recvPoll_spec env aux needack s
    rw [recvLoop]
    rcases hpoll : recvPoll env aux needack s with ⟨_ | b, s'⟩
    · rw [hpoll] at hran hrecv
      obtain ⟨ev', hran', hquiet⟩ := ran_yield env s'
      obtain ⟨ev'', hran'', hrecv''⟩ := ih (s'.yield env)
      cases hrecv with
      | timeout hw hs =>
        refine ⟨_, hran.trans (hran'.trans hran''), (hrecv''.after ?_ fun _ => ?_).after hw hs⟩
        · exact fun e he => (hquiet e he).1
        · exact hquiet.cmdReads aux
    · rw [hpoll] at hran hrecv
      exact ⟨ev, hran, hrecv⟩

theorem ps2Recvbyte_spec (env : Env) (aux needack : Bool) (s : Port) :
    ∃ ev, Ran s ev (ps2Recvbyte env aux needack s).2 ∧
      Received aux needack (ps2Recvbyte env aux needack s).1 ev := by
  obtain ⟨ev, hran, hrecv⟩ := recvLoop_spec env aux needack (env.polls s.now) s.tick
  exact ⟨ev, hran.tick, hrecv⟩

-- ---------------------------------------------------------------------------
-- The exchange
-- ---------------------------------------------------------------------------

/-- The command byte is left alone. -/
def NoWctr (ev : List Event) : Prop := ∀ v, .wctr v ∉ ev

/-- Nothing goes out to a device. -/
def NoSend (ev : List Event) : Prop := ∀ aux b, .send aux b ∉ ev

theorem NoWctr.append (h : NoWctr ev) (h' : NoWctr ev') : NoWctr (ev ++ ev') := fun v hv =>
  (List.mem_append.mp hv).elim (h v) (h' v)

theorem NoSend.append (h : NoSend ev) (h' : NoSend ev') : NoSend (ev ++ ev') := fun aux b hb =>
  (List.mem_append.mp hb).elim (h aux b) (h' aux b)

theorem Received.noWctr (h : Received aux needack r ev) : NoWctr ev := fun v hv =>
  absurd (h.wait _ hv) (by simp [Event.isWait])

theorem Received.noSend (h : Received aux needack r ev) : NoSend ev := fun aux b hb =>
  absurd (h.wait _ hb) (by simp [Event.isWait])

theorem Received.cmdReads_eq (h : Received aux false r ev) : cmdReads aux ev = r.toList := by
  cases h with
  | timeout _ hs => exact hs rfl
  | byte _ hs b =>
    rw [cmdReads_append, hs rfl]
    simp [cmdReads, Event.cmdRead]

theorem ps2Sendbyte_spec (env : Env) (aux : Bool) (b : Byte) (s : Port) :
    ∃ ev, Ran s ev (ps2Sendbyte env aux b s).2 ∧ NoWctr ev ∧
      ((ps2Sendbyte env aux b s).1 = true → ∃ pre, ev = pre ++ [.read .command aux ps2RetAck]) := by
  obtain ⟨ev, hran, hloads⟩ := ran_write env aux b s
  obtain ⟨ev', hran', hrecv⟩ := ps2Recvbyte_spec env aux true (s.write env aux b)
  have hno : NoWctr (ev ++ [.send aux b] ++ ev') := by
    refine NoWctr.append (NoWctr.append ?_ ?_) hrecv.noWctr
    · intro v hv
      obtain ⟨_, _, h⟩ := hloads _ hv
      cases h
    · intro v hv
      simp at hv
  unfold ps2Sendbyte
  rcases hres : ps2Recvbyte env aux true (s.write env aux b) with ⟨_ | data, s'⟩
  · rw [hres] at hran'
    exact ⟨_, hran.trans hran', hno, fun h => (nomatch h)⟩
  · rw [hres] at hran' hrecv
    refine ⟨_, hran.trans hran', hno, fun hack => ?_⟩
    have hdata : data = ps2RetAck := of_decide_eq_true hack
    cases hrecv with
    | @byte ev'' hw hs =>
      rw [hdata, ← List.append_assoc]
      exact ⟨_, rfl⟩

theorem sendBytes_spec (env : Env) (aux : Bool) (bs : List Byte) (s : Port) :
    ∃ ev, Ran s ev (sendBytes env aux bs s).2 ∧ NoWctr ev ∧
      ((sendBytes env aux bs s).1 = true →
        ev = [] ∨ ∃ pre, ev = pre ++ [.read .command aux ps2RetAck]) := by
  induction bs generalizing s with
  | nil => exact ⟨[], .refl s, by simp [NoWctr], fun _ => .inl rfl⟩
  | cons b bs ih =>
    obtain ⟨ev, hran, hno, hack⟩ := ps2Sendbyte_spec env aux b s
    rw [sendBytes]
    rcases hsend : ps2Sendbyte env aux b s with ⟨_ | _, s'⟩
    · rw [hsend] at hran
      exact ⟨ev, hran, hno, fun h => (nomatch h)⟩
    · rw [hsend] at hran hack
      obtain ⟨ev', hran', hno', hack'⟩ := ih s'
      refine ⟨_, hran.trans hran', hno.append hno', fun hrest => .inr ?_⟩
      obtain ⟨pre, hpre⟩ := hack rfl
      rcases hack' hrest with rfl | ⟨pre', rfl⟩
      · exact ⟨pre, by rw [List.append_nil, hpre]⟩
      · exact ⟨ev ++ pre', (List.append_assoc _ _ _).symm⟩

theorem recvBytes_spec (env : Env) (aux : Bool) (n : Nat) (s : Port) :
    ∃ ev, Ran s ev (recvBytes env aux n s).2 ∧ NoWctr ev ∧ NoSend ev ∧
      ∀ out, (recvBytes env aux n s).1 = some out → out = cmdReads aux ev ∧ out.length = n := by
  induction n generalizing s with
  | zero =>
    refine ⟨[], .refl s, by simp [NoWctr], by simp [NoSend], fun out hout => ?_⟩
    cases hout
    exact ⟨rfl, rfl⟩
  | succ n ih =>
    obtain ⟨ev, hran, hrecv⟩ := ps2Recvbyte_spec env aux false s
    rw [recvBytes]
    rcases hres : ps2Recvbyte env aux false s with ⟨_ | b, s'⟩
    · rw [hres] at hran
      exact ⟨ev, hran, hrecv.noWctr, hrecv.noSend, fun out hout => (nomatch hout)⟩
    · rw [hres] at hran hrecv
      obtain ⟨ev', hran', hno', hsend', hout'⟩ := ih s'
      dsimp only at hran ⊢
      rcases hrest : recvBytes env aux n s' with ⟨_ | rest, s''⟩
      · rw [hrest] at hran'
        exact ⟨_, hran.trans hran', hrecv.noWctr.append hno', hrecv.noSend.append hsend',
          fun out hout => (nomatch hout)⟩
      · rw [hrest] at hran' hout'
        obtain ⟨hreads, hlen⟩ := hout' rest rfl
        refine ⟨_, hran.trans hran', hrecv.noWctr.append hno', hrecv.noSend.append hsend',
          fun out hout => ?_⟩
        cases hout
        refine ⟨?_, by rw [List.length_cons, hlen]⟩
        rw [cmdReads_append, hrecv.cmdReads_eq, ← hreads]
        rfl

/-- What stands behind the bytes received: nothing, or the 0 for the second
byte that a reset did not bring in time or that an id does not have. -/
def Padding (command : BitVec 16) (got pad : List Byte) : Prop :=
  pad = [] ∨ pad = [0] ∧ ∃ first, got = [first] ∧
    (command = atkbdCmdResetBat ∨ command = atkbdCmdGetid ∧ first ∉ keyboardIds)

/-- The parameters of a command that succeeds: what it takes from the device
after the last acknowledgement. -/
structure Answered (aux : Bool) (command : BitVec 16) (out : List Byte) (post : List Event) :
    Prop where
  noSend : NoSend post
  bytes : ∃ pad, out = cmdReads aux post ++ pad ∧ Padding command (cmdReads aux post) pad
  length : out.length = receiveCount command

theorem Ran.slot_none (h : Ran s (pre ++ [.read by_ aux b]) s') : s'.slot = none := by
  have hmoves := h.buffer
  rw [List.filterMap_append] at hmoves
  exact hmoves.get_last

/-- What follows an acknowledgement, from the state it leaves. -/
structure AfterAck (aux : Bool) (command : BitVec 16) (s : Port)
    (r : Option (List Byte) × Port) (ev : List Event) : Prop where
  ran : Ran s ev r.2
  noWctr : NoWctr ev
  answered : ∀ out, r.1 = some out → Answered aux command out ev

theorem AfterAck.fail (h : Ran s ev s') (hno : NoWctr ev) : AfterAck aux command s (none, s') ev :=
  ⟨h, hno, fun _ hout => nomatch hout⟩

/-- A second byte that the device may leave out, or that fails the command. -/
theorem afterAck_second (env : Env) (hfirst : Received aux false (some first) ev)
    (hran : Ran s ev s') (hcount : receiveCount command = 2) (alone : Option (List Byte))
    (halone : ∀ out, alone = some out → out = [first, 0] ∧ command = atkbdCmdResetBat) :
    ∃ ev', AfterAck aux command s
      (match ps2Recvbyte env aux false s' with
        | (none, s) => (alone, s)
        | (some second, s) => (some [first, second], s)) ev' := by
  obtain ⟨ev', hran', hrecv'⟩ := ps2Recvbyte_spec env aux false s'
  have hno := hfirst.noWctr.append hrecv'.noWctr
  have hsend := hfirst.noSend.append hrecv'.noSend
  have hreads : cmdReads aux (ev ++ ev') = first :: (ps2Recvbyte env aux false s').1.toList := by
    rw [cmdReads_append, hfirst.cmdReads_eq, hrecv'.cmdReads_eq]
    rfl
  rcases hres : ps2Recvbyte env aux false s' with ⟨_ | second, s''⟩
  · rw [hres] at hran' hreads
    refine ⟨ev ++ ev', hran.trans hran', hno, fun out hout => ?_⟩
    obtain ⟨rfl, hreset⟩ := halone out hout
    exact ⟨hsend, ⟨[0], by rw [hreads]; rfl, .inr ⟨rfl, first, hreads, .inl hreset⟩⟩, hcount.symm⟩
  · rw [hres] at hran' hreads
    refine ⟨ev ++ ev', hran.trans hran', hno, fun out hout => ?_⟩
    cases hout
    exact ⟨hsend, ⟨[], by rw [hreads]; rfl, .inl rfl⟩, hcount.symm⟩

theorem exchange_spec (env : Env) (aux : Bool) (command : BitVec 16) (param : List Byte)
    (s : Port) :
    ∃ ev, Ran s ev (exchange env aux command param s).2 ∧ NoWctr ev ∧
      ∀ out, (exchange env aux command param s).1 = some out →
        ∃ pre post s', ev = pre ++ .read .command aux ps2RetAck :: post ∧
          Ran s' post (exchange env aux command param s).2 ∧ s'.slot = none ∧
          Answered aux command out post := by
  obtain ⟨ev, hran, hno, hack⟩ := ps2Sendbyte_spec env aux (command.setWidth 8) s
  unfold exchange
  rcases hsend : ps2Sendbyte env aux (command.setWidth 8) s with ⟨_ | _, s₁⟩
  · rw [hsend] at hran
    exact ⟨ev, hran, hno, fun out hout => (nomatch hout)⟩
  rw [hsend] at hran hack
  obtain ⟨pre, rfl⟩ := hack rfl
  have hslot := hran.slot_none
  dsimp only at hran ⊢
  -- The branches differ in what follows the acknowledgement of the command byte.
  have hjoin {r : Option (List Byte) × Port} (h : ∃ ev, AfterAck aux command s₁ r ev) :
      ∃ ev, Ran s ev r.2 ∧ NoWctr ev ∧ ∀ out, r.1 = some out →
        ∃ pre post s', ev = pre ++ .read .command aux ps2RetAck :: post ∧ Ran s' post r.2 ∧
          s'.slot = none ∧ Answered aux command out post := by
    obtain ⟨ev', hafter⟩ := h
    refine ⟨_, hran.trans hafter.ran, hno.append hafter.noWctr, fun out hout => ?_⟩
    exact ⟨pre, ev', s₁, List.append_assoc _ _ _, hafter.ran, hslot, hafter.answered out hout⟩
  split
  · next hreset =>
    apply hjoin
    obtain ⟨ev', hran', hrecv'⟩ := ps2Recvbyte_spec env aux false s₁
    rcases hres : ps2Recvbyte env aux false s₁ with ⟨_ | first, s₂⟩
    · rw [hres] at hran' hrecv'
      exact ⟨ev', .fail hran' hrecv'.noWctr⟩
    · rw [hres] at hran' hrecv'
      refine afterAck_second env hrecv' hran' (by rw [hreset]; rfl) (some [first, 0]) ?_
      intro out hout
      cases hout
      exact ⟨rfl, hreset⟩
  split
  · next hgetid =>
    apply hjoin
    obtain ⟨ev', hran', hrecv'⟩ := ps2Recvbyte_spec env aux false s₁
    rcases hres : ps2Recvbyte env aux false s₁ with ⟨_ | first, s₂⟩
    · rw [hres] at hran' hrecv'
      exact ⟨ev', .fail hran' hrecv'.noWctr⟩
    · rw [hres] at hran' hrecv'
      dsimp only at hran' ⊢
      split
      · exact afterAck_second env hrecv' hran' (by rw [hgetid]; rfl) none fun _ h => nomatch h
      · next hid =>
        refine ⟨ev', hran', hrecv'.noWctr, fun out hout => ?_⟩
        cases hout
        have hreads := hrecv'.cmdReads_eq
        refine ⟨hrecv'.noSend, ⟨[0], by rw [hreads]; rfl, .inr ⟨rfl, first, hreads, ?_⟩⟩, ?_⟩
        · exact .inr ⟨hgetid, hid⟩
        · rw [hgetid]
          rfl
  · obtain ⟨ev₂, hran₂, hno₂, hack₂⟩ := sendBytes_spec env aux (param.take (sendCount command)) s₁
    rcases hbytes : sendBytes env aux (param.take (sendCount command)) s₁ with ⟨_ | _, s₂⟩
    · rw [hbytes] at hran₂
      exact ⟨_, hran.trans hran₂, hno.append hno₂, fun out hout => (nomatch hout)⟩
    rw [hbytes] at hran₂ hack₂
    obtain ⟨ev₃, hran₃, hno₃, hsend₃, hout₃⟩ := recvBytes_spec env aux (receiveCount command) s₂
    have hafter : AfterAck aux command s₂ (recvBytes env aux (receiveCount command) s₂) ev₃ := by
      refine ⟨hran₃, hno₃, fun out hout => ?_⟩
      obtain ⟨hreads, hlen⟩ := hout₃ out hout
      exact ⟨hsend₃, ⟨[], by rw [hreads, List.append_nil], .inl rfl⟩, hlen⟩
    rcases hack₂ rfl with rfl | ⟨pre₂, rfl⟩
    · refine ⟨_, (hran.trans hran₂).trans hran₃, (hno.append hno₂).append hno₃, fun out hout => ?_⟩
      refine ⟨pre, ev₃, s₂, by simp, hran₃, ?_, hafter.answered out hout⟩
      have hran' := hran.trans hran₂
      rw [List.append_nil] at hran'
      exact hran'.slot_none
    · refine ⟨_, (hran.trans hran₂).trans hran₃, (hno.append hno₂).append hno₃, fun out hout => ?_⟩
      exact ⟨pre ++ [.read .command aux ps2RetAck] ++ pre₂, ev₃, s₂, by simp, hran₃,
        hran₂.slot_none, hafter.answered out hout⟩

-- ---------------------------------------------------------------------------
-- The ports inside the bracket
-- ---------------------------------------------------------------------------

theorem disabled_kbdEnable {ctr : Byte} (h : Disabled true ctr) :
    Disabled true (ctr &&& ~~~i8042CtrKbddis) := by
  revert ctr
  unfold Disabled disBit i8042CtrAuxdis i8042CtrKbddis
  decide

/-- A port stays off while only command bytes with it off are written, unless
the keyboard is turned on. -/
theorem disabled_after {aux : Bool} {ctr : Byte} {ev : List Event} (h : Disabled aux ctr)
    (hwctr : ∀ v, .wctr v ∈ ev → Disabled aux v) :
    Disabled aux (ctrAfter ctr ev) ∨ aux = false ∧ .kbdEnable ∈ ev := by
  induction ev generalizing ctr with
  | nil => exact .inl h
  | cons e ev ih =>
    have hrest (h' : Disabled aux (ctrStep ctr e)) :
        Disabled aux (ctrAfter ctr (e :: ev)) ∨ aux = false ∧ .kbdEnable ∈ e :: ev :=
      (ih h' fun v hv => hwctr v (List.mem_cons_of_mem _ hv)).imp_right fun ⟨haux, hmem⟩ =>
        ⟨haux, List.mem_cons_of_mem _ hmem⟩
    cases e with
    | wctr v => exact hrest (hwctr v List.mem_cons_self)
    | kbdEnable =>
      cases aux with
      | false => exact .inr ⟨rfl, List.mem_cons_self⟩
      | true => exact hrest (disabled_kbdEnable h)
    | send _ _ => exact hrest h
    | load _ _ => exact hrest h
    | read _ _ _ => exact hrest h

theorem LoadsEnabled.at_load {ctr : Byte} {l₁ l₂ : List Event} {aux : Bool} {b : Byte}
    (h : LoadsEnabled ctr (l₁ ++ .load aux b :: l₂)) : ¬ Disabled aux (ctrAfter ctr l₁) :=
  (loadsEnabled_append.mp h).2.1 aux b rfl

/-- A byte read was in the buffer to begin with, or has entered it before. -/
theorem Ran.load_before (h : Ran s (l ++ .read by_ aux b :: l') s') :
    s.slot = some (aux, b) ∨ .load aux b ∈ l := by
  have hmoves := h.buffer
  rw [List.filterMap_append] at hmoves
  refine (Moves.put_before hmoves).imp_right fun hput => ?_
  obtain ⟨e, he, hact⟩ := List.mem_filterMap.mp hput
  cases e with
  | load aux' b' =>
    cases hact
    exact he
  | wctr _ => cases hact
  | kbdEnable => cases hact
  | send _ _ => cases hact
  | read _ _ _ => cases hact

/-- The bytes of a port that enter the buffer, and those that leave it. -/
def portLoads (aux : Bool) (ev : List Event) : List Byte :=
  ev.filterMap fun e => match e with
    | .load aux' b => if aux' = aux then some b else none
    | _ => none

def portReads (aux : Bool) (ev : List Event) : List Byte :=
  ev.filterMap fun e => match e with
    | .read _ aux' b => if aux' = aux then some b else none
    | _ => none

theorem portLoads_eq (aux : Bool) (ev : List Event) :
    portLoads aux ev =
      (puts (ev.filterMap Event.act)).filterMap fun x => if x.1 = aux then some x.2 else none := by
  induction ev with
  | nil => rfl
  | cons e ev ih =>
    unfold portLoads at ih ⊢
    cases e <;> simp [Event.act, puts, ih, List.filterMap_cons]

theorem portReads_eq (aux : Bool) (ev : List Event) :
    portReads aux ev =
      (gets (ev.filterMap Event.act)).filterMap fun x => if x.1 = aux then some x.2 else none := by
  induction ev with
  | nil => rfl
  | cons e ev ih =>
    unfold portReads at ih ⊢
    cases e <;> simp [Event.act, gets, ih, List.filterMap_cons]

/-- From an empty buffer, what a port sends is read in order, but for what is
in the buffer still. -/
theorem Ran.sent_eq (h : Ran s ev s') (hslot : s.slot = none) (aux : Bool) :
    ∃ left, portLoads aux ev = portReads aux ev ++ left ∧ left.length ≤ 1 := by
  have horder := h.buffer.inOrder
  rw [hslot, Option.toList_none, List.nil_append] at horder
  rw [portLoads_eq, portReads_eq, horder, List.filterMap_append]
  refine ⟨_, rfl, Nat.le_trans (List.length_filterMap_le _ _) ?_⟩
  cases s'.slot <;> simp

theorem portReads_eq_cmdReads {aux : Bool} {ev : List Event}
    (h : ∀ b, .read .handler aux b ∉ ev) : portReads aux ev = cmdReads aux ev := by
  refine List.filterMap_congr fun e he => ?_
  cases e with
  | read by_ aux' b =>
    cases by_ with
    | command => rfl
    | handler =>
      have hne : aux' ≠ aux := fun heq => h b (heq ▸ he)
      simp [Event.cmdRead, hne]
  | wctr _ => rfl
  | kbdEnable => rfl
  | send _ _ => rfl
  | load _ _ => rfl

end ItxLlama.Seabios.Ps2
