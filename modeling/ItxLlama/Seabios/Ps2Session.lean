import ItxLlama.Seabios.Ps2Bracket

/-!
# Sequences of PS/2 commands

Commands to both devices, with the outside free between them too. Each one
leaves the command byte as `Ps2ctr` has it, keeps the other port off but for
what the keyboard handler turns on, and returns what its device sent after
the last acknowledgement.
-/

namespace ItxLlama.Seabios.Ps2

open Lib.Bytes (Byte)

structure Call where
  aux : Bool
  command : BitVec 16
  param : List Byte
  deriving DecidableEq, Repr

def Call.run (env : Env) (c : Call) (s : Port) : Option (List Byte) × Port :=
  if c.aux then ps2MouseCommand env c.command c.param s else ps2KbdCommand env c.command c.param s

/-- Each call with the state it is made in. -/
def session (env : Env) : List Call → Port → List (Call × Port)
  | [], _ => []
  | c :: calls, s =>
    let s := s.yield env
    (c, s) :: session env calls (c.run env s).2

/-- `Ps2ctr` as the bracket finds it. -/
def Call.ps2ctr (c : Call) (s : Port) : Byte :=
  if c.aux then mouseCtr c.command s.ps2ctr else s.ps2ctr

/-- The state after the first disable. -/
def Call.opened (env : Env) (c : Call) (s : Port) : Port :=
  Port.wctr env (portsOff (c.ps2ctr s)) { s with ps2ctr := c.ps2ctr s }

/-- What the bracket returns, and the state before the restore. -/
def Call.inside (env : Env) (c : Call) (s : Port) : Option (List Byte) × Port :=
  bracket env c.aux c.command c.param (portsOff (c.ps2ctr s)) (c.opened env s)

/-- A keyboard handler has turned the keyboard on, during a command to the mouse. -/
def Reopened (c : Call) (ps2ctr : Byte) (ev : List Event) : Prop :=
  c.aux = true ∧ .kbdEnable ∈ ev ∧ ps2ctr &&& i8042CtrKbdint ≠ 0

/-- The parameters returned: what the device sent after its last
acknowledgement and no handler read, and the padding of a missing second byte. -/
structure Returned (c : Call) (out : List Byte) (post : List Event) : Prop where
  answered : Answered c.aux c.command out post
  sent : ∃ left, portLoads c.aux post = portReads c.aux post ++ left ∧ left.length ≤ 1
  unshared : (∀ b, .read .handler c.aux b ∉ post) → portReads c.aux post = cmdReads c.aux post

/-- One command, with `mid` what happens from the first disable to the restore. -/
structure Bracketed (env : Env) (c : Call) (s : Port) (mid : List Event) : Prop where
  restored : (c.run env s).2.ctr = (c.run env s).2.ps2ctr
  result : (c.run env s).1 = (c.inside env s).1
  ran : Ran (c.opened env s) mid (c.inside env s).2
  disabled : ∀ l, l <+: mid → Disabled (!c.aux) (ctrAfter (c.opened env s).ctr l) ∨
    Reopened c (c.ps2ctr s) l
  discarded : ∀ l b l', mid = l ++ .read .command (!c.aux) b :: l' →
    (c.opened env s).slot = some (!c.aux, b) ∨ .load (!c.aux) b ∈ l ∧ Reopened c (c.ps2ctr s) l
  returned : ∀ out, (c.run env s).1 = some out →
    ∃ pre post, mid = pre ++ .read .command c.aux ps2RetAck :: post ∧ Returned c out post

theorem Call.run_eq (env : Env) (c : Call) (s : Port) :
    c.run env s = ((c.inside env s).1, (c.inside env s).2.wctr env (c.ps2ctr s)) := by
  unfold Call.run Call.inside Call.opened Call.ps2ctr
  cases c.aux <;> rfl

theorem Port.ctr_wctr (env : Env) (v : Byte) (s : Port) : (s.wctr env v).ctr = v := rfl

theorem Port.ps2ctr_wctr (env : Env) (v : Byte) (s : Port) : (s.wctr env v).ps2ctr = s.ps2ctr := by
  obtain ⟨ev, hran, -⟩ := ran_wctr env v s
  exact hran.ps2ctr

theorem disabled_portsOff (aux : Bool) (ps2ctr : Byte) : Disabled aux (portsOff ps2ctr) := by
  revert ps2ctr
  unfold Disabled portsOff disBit i8042CtrAuxdis i8042CtrKbddis i8042CtrKbdint i8042CtrAuxint
  cases aux <;> decide

theorem disabled_portsOff_other (aux : Bool) (ps2ctr : Byte) :
    Disabled (!aux) (portsOff ps2ctr &&& ~~~disBit aux) := by
  revert ps2ctr
  unfold Disabled portsOff disBit i8042CtrAuxdis i8042CtrKbddis i8042CtrKbdint i8042CtrAuxint
  cases aux <;> decide

theorem inside_spec (env : Env) (c : Call) (s : Port) :
    ∃ mid, Ran (c.opened env s) mid (c.inside env s).2 ∧
      (∀ v, .wctr v ∈ mid → v = portsOff (c.ps2ctr s) &&& ~~~disBit c.aux) ∧
      ∀ out, (c.inside env s).1 = some out →
        ∃ pre post s', mid = pre ++ .read .command c.aux ps2RetAck :: post ∧
          Ran s' post (c.inside env s).2 ∧ s'.slot = none ∧ Answered c.aux c.command out post := by
  obtain ⟨ev₁, hran₁, hquiet⟩ := ran_yield env (c.opened env s)
  obtain ⟨ev₂, hran₂, hloads⟩ :=
    ran_wctr env (portsOff (c.ps2ctr s) &&& ~~~disBit c.aux) ((c.opened env s).yield env)
  obtain ⟨ev₃, hran₃, hno, hout⟩ := exchange_spec env c.aux c.command c.param
    (((c.opened env s).yield env).wctr env (portsOff (c.ps2ctr s) &&& ~~~disBit c.aux))
  refine ⟨_, (hran₁.trans hran₂).trans hran₃, fun v hv => ?_, fun out hsome => ?_⟩
  · rcases List.mem_append.mp hv with hv | hv
    · rcases List.mem_append.mp hv with hv | hv
      · exact absurd (hquiet _ hv).1 (by simp [Event.isWait])
      rcases List.mem_append.mp hv with hv | hv
      · obtain ⟨_, _, h⟩ := hloads _ hv
        cases h
      · rw [List.mem_singleton] at hv
        cases hv
        rfl
    · exact absurd hv (hno v)
  · obtain ⟨pre, post, s', hsplit, hrest⟩ := hout out hsome
    exact ⟨_ ++ pre, post, s', by rw [hsplit, ← List.append_assoc], hrest⟩

theorem call_bracketed (env : Env) (c : Call) (s : Port) : ∃ mid, Bracketed env c s mid := by
  obtain ⟨mid, hran, hwctr, hout⟩ := inside_spec env c s
  have hctr : (c.opened env s).ps2ctr = c.ps2ctr s := Port.ps2ctr_wctr env _ _
  have hoff : Disabled (!c.aux) (c.opened env s).ctr := disabled_portsOff _ _
  have hopen (l : List Event) (hl : l <+: mid) :
      Disabled (!c.aux) (ctrAfter (c.opened env s).ctr l) ∨ Reopened c (c.ps2ctr s) l := by
    refine (disabled_after hoff fun v hv => ?_).imp_right fun ⟨haux, hmem⟩ => ?_
    · rw [hwctr v (hl.subset hv)]
      exact disabled_portsOff_other _ _
    · exact ⟨by simpa using haux, hmem, hctr ▸ hran.enables (hl.subset hmem)⟩
  refine ⟨mid, ?_, by rw [Call.run_eq], hran, hopen, fun l b l' hsplit => ?_, fun out hsome => ?_⟩
  · rw [Call.run_eq, Port.ctr_wctr, Port.ps2ctr_wctr, hran.ps2ctr, hctr]
  · subst hsplit
    refine hran.load_before.imp_right fun hload => ⟨hload, ?_⟩
    obtain ⟨l₁, l₂, rfl⟩ := List.append_of_mem hload
    have hon : ¬ Disabled (!c.aux) (ctrAfter (c.opened env s).ctr l₁) :=
      (loadsEnabled_append.mp hran.loads).1.at_load
    obtain ⟨haux, hmem, hint⟩ :=
      (hopen l₁ ⟨_, (List.append_assoc _ _ _).symm⟩).resolve_left hon
    exact ⟨haux, List.mem_append_left _ hmem, hint⟩
  · rw [Call.run_eq] at hsome
    obtain ⟨pre, post, s', hsplit, hpost, hslot, hanswered⟩ := hout out hsome
    exact ⟨pre, post, hsplit, hanswered, hpost.sent_eq hslot c.aux, portReads_eq_cmdReads⟩

/-- Every command of every sequence is bracketed. -/
theorem session_bracketed (env : Env) (calls : List Call) (s : Port) :
    ∀ x ∈ session env calls s, ∃ mid, Bracketed env x.1 x.2 mid := by
  induction calls generalizing s with
  | nil => simp [session]
  | cons c calls ih =>
    intro x hx
    rcases List.mem_cons.mp hx with rfl | hx
    · exact call_bracketed env c _
    · exact ih _ x hx

-- ---------------------------------------------------------------------------
-- A key during a reset of the mouse
-- ---------------------------------------------------------------------------

/-- A key has been pressed, and its interrupt comes at the first yield. The
key is let go before the mouse acknowledges. -/
def keyEnv : Env where
  bytes n := match n with
    | 5 => [(false, 0x9e)]
    | 10 => [(true, 0xfa)]
    | 12 => [(true, 0xaa)]
    | _ => []
  irqs n := if n = 1 then [.irq1] else []
  polls n := if n = 7 then 1 else 0

def keyPort : Port := ⟨0x47, 0x47, true, false, 0x1e, 0, []⟩

def resetMouse : Call := ⟨true, atkbdCmdResetBat, []⟩

theorem session_bracketed_reset :
    ∃ mid, Bracketed keyEnv resetMouse (keyPort.yield keyEnv) mid :=
  session_bracketed keyEnv [resetMouse] keyPort (resetMouse, keyPort.yield keyEnv)
    List.mem_cons_self

/-- The keyboard is turned on inside the bracket, what it sends then is
discarded, and the second parameter is no byte of the mouse. -/
theorem resetMouse_key : ∃ mid,
    (resetMouse.inside keyEnv keyPort).2.trace =
        (resetMouse.opened keyEnv keyPort).trace ++ mid ∧
      (∃ l, l <+: mid ∧ ¬ Disabled false (ctrAfter (resetMouse.opened keyEnv keyPort).ctr l)) ∧
      .read .command false 0x9e ∈ mid ∧ .load false 0x9e ∈ mid ∧
      (resetMouse.run keyEnv keyPort).1 = some [0xaa, 0] ∧ portLoads true mid = [0xfa, 0xaa] := by
  refine ⟨[.read .handler false 0x1e, .kbdEnable, .load false 0x9e, .wctr 0x54,
    .send true 0xff, .read .command false 0x9e, .load true 0xfa, .read .command true 0xfa,
    .load true 0xaa, .read .command true 0xaa], by decide, ?_, by decide, by decide, by decide,
    by decide⟩
  exact ⟨[.read .handler false 0x1e, .kbdEnable], by decide, by decide⟩

end ItxLlama.Seabios.Ps2
