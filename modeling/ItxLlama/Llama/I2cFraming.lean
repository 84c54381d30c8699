import ItxLlama.Llama.I2c

/-!
# Transaction framing

What a transfer puts on the bus, and which register accesses end each
transaction they start. The writes that clear status bits are not seen on the
bus.
-/

namespace ItxLlama.Llama

def I2cOp.isStat : I2cOp → Bool
  | .stat _ => true
  | _ => false

/-- A write to the control register with the STOP bit. -/
def I2cOp.isStop : I2cOp → Bool
  | .ctrl val => val.getLsbD 1
  | _ => false

def wire (log : List I2cOp) : List I2cOp := log.filter (!·.isStat)

/-- A STOP is requested behind each START. -/
def framed : List I2cOp → Bool
  | [] => true
  | .addr _ :: ops => ops.any (·.isStop) && framed ops
  | _ :: ops => framed ops

@[simp] theorem wire_nil : wire [] = [] := rfl

@[simp] theorem wire_append (l l' : List I2cOp) : wire (l ++ l') = wire l ++ wire l' :=
  List.filter_append ..

@[simp] theorem wire_data (b : Byte) (l : List I2cOp) :
    wire (.data b :: l) = .data b :: wire l := rfl

theorem txClear_isStat (w : Wait) : ∀ op ∈ txClear w, op.isStat = true := by
  unfold txClear
  intro op hop
  split at hop <;> split at hop <;> simp at hop <;> grind [I2cOp.isStat]

theorem rxClear_isStat (w : Wait) : ∀ op ∈ rxClear w, op.isStat = true := by
  unfold rxClear
  intro op hop
  split at hop <;> simp at hop <;> grind [I2cOp.isStat]

theorem wire_of_isStat {ops : List I2cOp} (h : ∀ op ∈ ops, op.isStat = true) : wire ops = [] :=
  List.filter_eq_nil_iff.mpr fun op hop => by simp [h op hop]

@[simp] theorem wire_txClear (w : Wait) : wire (txClear w) = [] :=
  wire_of_isStat (txClear_isStat w)

@[simp] theorem wire_rxClear (w : Wait) : wire (rxClear w) = [] :=
  wire_of_isStat (rxClear_isStat w)

theorem isStop_set (ctrl : Byte) : (I2cOp.ctrl (ctrl ||| 0x02)).isStop = true := by
  simp [I2cOp.isStop]

section
variable (e : I2cEnv)

-- ---------------------------------------------------------------------------
-- Transfers without error
-- ---------------------------------------------------------------------------

theorem i2cReadStore_wire (len i : Nat) (s : I2c) :
    ∃ b stop, (i2cReadStore e len i s).2.1 = [b] ∧ I2cOp.isStop stop = true ∧
      wire (i2cReadStore e len i s).2.2.log =
        wire s.log ++ ((if i + 2 = len then [stop] else []) ++ [.read b]) := by
  unfold i2cReadStore
  by_cases hstop : i + 2 = len
  · refine ⟨_, _, rfl, isStop_set (e.ctrl s.now), ?_⟩
    simp only [if_pos hstop, if_neg (show i + 1 ≠ len by omega)]
    simp [i2cReadByte, i2cSetStop, I2c.does, wire, I2cOp.isStat]
  · refine ⟨_, .ctrl 0x02, rfl, by decide, ?_⟩
    simp only [if_neg hstop]
    split
    · simp [checkStopDone, i2cReadByte, I2c.does, wire, I2cOp.isStat]
    · simp [i2cReadByte, I2c.does, wire, I2cOp.isStat]

theorem i2cReadPass_wire (h : i2cReadPass e len i s = (true, data, s')) :
    ∃ b stop, data = [b] ∧ I2cOp.isStop stop = true ∧
      wire s'.log = wire (i2cReadFirst e len i s).log ++
        ((if i + 2 = len then [stop] else []) ++ [.read b]) := by
  unfold i2cReadPass at h
  split at h
  · cases h
  · next s₁ hrx =>
    have hwire : wire s₁.log = wire (i2cReadFirst e len i s).log := by
      rw [← congrArg (fun r => r.2.log) hrx]
      simp [checkRxDone, I2c.does]
    have hstore := i2cReadStore_wire e len i s₁
    rw [h, hwire] at hstore
    exact hstore

/-- The passes behind the first: the STOP stands in front of the last two
reads. -/
theorem i2cReadLoop_wire (hi : 0 < i) (hlen : i + passes = len)
    (h : i2cReadLoop e len passes i s = (true, data, s')) :
    data.length = passes ∧ ∃ stop, I2cOp.isStop stop = true ∧
      wire s'.log = wire s.log ++
        if 2 ≤ passes then
          (data.map .read).take (passes - 2) ++ stop :: (data.map .read).drop (passes - 2)
        else data.map .read := by
  induction passes generalizing i s data with
  | zero =>
    cases h
    exact ⟨rfl, .ctrl 0x02, by decide, by simp⟩
  | succ passes ih =>
    rw [i2cReadLoop] at h
    split at h
    · cases h
    · next data₁ s₁ hpass =>
      obtain ⟨b, stop, rfl, hstop, hwire⟩ := i2cReadPass_wire e hpass
      obtain ⟨ok, rest, s₂, hrest⟩ :
          ∃ ok rest s₂, i2cReadLoop e len passes (i + 1) s₁ = (ok, rest, s₂) := ⟨_, _, _, rfl⟩
      rw [hrest] at h
      obtain ⟨rfl, rfl, rfl⟩ : ok = true ∧ [b] ++ rest = data ∧ s₂ = s' := by simpa using h
      obtain ⟨hlength, stop', hstop', hwire'⟩ := ih (Nat.succ_pos i) (by omega) hrest
      have hfirst : i2cReadFirst e len i s = s := if_neg (Nat.ne_of_gt hi)
      rw [hfirst] at hwire
      refine ⟨by simp [hlength], ?_⟩
      rw [hwire', hwire]
      match passes with
      | 0 =>
        refine ⟨stop, hstop, ?_⟩
        rw [if_neg (by omega), if_neg (by decide), if_neg (by decide)]
        simp
      | 1 =>
        refine ⟨stop, hstop, ?_⟩
        rw [if_pos (by omega), if_neg (by decide), if_pos (by decide)]
        simp
      | passes + 2 =>
        refine ⟨stop', hstop', ?_⟩
        rw [if_neg (by omega), if_pos (by omega), if_pos (by omega)]
        simp

theorem i2cReadFirst_wire (len : Nat) (s : I2c) :
    ∃ dummy stop, I2cOp.isStop stop = true ∧
      wire (i2cReadFirst e len 0 s).log =
        wire s.log ++ ((if len = 1 then [stop] else []) ++ [.read dummy]) := by
  unfold i2cReadFirst
  by_cases hlen : len = 1
  · refine ⟨e.data (s.now + 1), _, isStop_set (e.ctrl s.now), ?_⟩
    simp only [if_pos hlen, if_pos hlen.symm, if_true, Nat.zero_add]
    simp [i2cReadByte, i2cSetStop, I2c.does, wire, I2cOp.isStat]
  · refine ⟨e.data s.now, .ctrl 0x02, by decide, ?_⟩
    simp only [if_neg hlen, if_neg (Ne.symm hlen), if_true, Nat.zero_add]
    simp [i2cReadByte, I2c.does, wire, I2cOp.isStat]

/-- The bytes come in order behind the dummy read, each clocked by the read
before it. -/
def readFrame (dummy : Byte) (data : List Byte) (stop : I2cOp) : List I2cOp :=
  let reads := (dummy :: data).map .read
  reads.take (data.length - 1) ++ stop :: reads.drop (data.length - 1)

def writeFrame (data : List Byte) (stop : I2cOp) : List I2cOp := data.map .data ++ [stop]

theorem i2cRead_wire (hlen : 1 ≤ len) (h : i2cRead e len s = (true, data, s')) :
    data.length = len ∧ ∃ dummy stop, I2cOp.isStop stop = true ∧
      wire s'.log = wire s.log ++ readFrame dummy data stop := by
  obtain ⟨passes, rfl⟩ := Nat.exists_eq_add_of_le' hlen
  rw [i2cRead, i2cReadLoop] at h
  split at h
  · cases h
  · next data₁ s₁ hpass =>
    obtain ⟨b, stop, rfl, hstop, hwire⟩ := i2cReadPass_wire e hpass
    obtain ⟨ok, rest, s₂, hrest⟩ :
        ∃ ok rest s₂, i2cReadLoop e (passes + 1) passes (0 + 1) s₁ = (ok, rest, s₂) :=
      ⟨_, _, _, rfl⟩
    rw [hrest] at h
    obtain ⟨rfl, rfl, rfl⟩ : ok = true ∧ [b] ++ rest = data ∧ s₂ = s' := by simpa using h
    obtain ⟨hlength, stop', hstop', hwire'⟩ := i2cReadLoop_wire e (Nat.succ_pos 0) (by omega) hrest
    obtain ⟨dummy, stop₀, hstop₀, hfirst⟩ := i2cReadFirst_wire e (passes + 1) s
    refine ⟨by simp [hlength], dummy, ?_⟩
    rw [hwire', hwire, hfirst]
    match passes, hlength with
    | 0, hlength =>
      obtain rfl := List.eq_nil_of_length_eq_zero hlength
      exact ⟨stop₀, hstop₀, by simp [readFrame]⟩
    | 1, hlength =>
      obtain ⟨c, rfl⟩ := List.length_eq_one_iff.mp hlength
      exact ⟨stop, hstop, by simp [readFrame]⟩
    | passes + 2, hlength => exact ⟨stop', hstop', by simp [readFrame, hlength]⟩

theorem i2cWrite_wire (h : i2cWrite e data s = (true, s')) :
    ∃ stop, I2cOp.isStop stop = true ∧ wire s'.log = wire s.log ++ writeFrame data stop := by
  induction data generalizing s with
  | nil =>
    refine ⟨_, isStop_set (e.ctrl s.now), ?_⟩
    rw [← congrArg (fun r => r.2.log) h]
    simp [i2cWrite, checkStopDone, i2cSetStop, I2c.does, wire, writeFrame, I2cOp.isStat]
  | cons b data ih =>
    rw [i2cWrite] at h
    split at h
    · cases h
    · next s₁ htx =>
      obtain ⟨stop, hstop, hwire⟩ := ih h
      refine ⟨stop, hstop, ?_⟩
      rw [hwire, ← congrArg (fun r => r.2.log) htx]
      simp [checkTxDone, i2cWriteByte, I2c.does, writeFrame]

-- ---------------------------------------------------------------------------
-- Transactions
-- ---------------------------------------------------------------------------

theorem framed_start (l : List I2cOp) (a : Byte) : framed (l ++ [.addr a]) = false := by
  induction l with
  | nil => rfl
  | cons op l ih =>
    cases op with
    | addr => exact Bool.and_eq_false_iff.mpr (.inr ih)
    | _ => exact ih

theorem framed_stop (l : List I2cOp) (hop : I2cOp.isStop op = true) :
    framed (l ++ [op]) = true := by
  induction l with
  | nil =>
    cases op with
    | ctrl => rfl
    | _ => cases hop
  | cons op' l ih =>
    cases op' with
    | addr => exact Bool.and_eq_true_iff.mpr ⟨by simp [hop], ih⟩
    | _ => exact ih

theorem framed_concat (l : List I2cOp) (haddr : ∀ a, op ≠ .addr a) (hstop : I2cOp.isStop op = false)
    :
    framed (l ++ [op]) = framed l := by
  induction l with
  | nil =>
    cases op with
    | addr a => exact absurd rfl (haddr a)
    | _ => rfl
  | cons op' l ih =>
    cases op' with
    | addr a =>
      show (((l ++ [op]).any (·.isStop)) && framed (l ++ [op])) = (l.any (·.isStop) && framed l)
      rw [ih, List.any_append]
      simp [hstop]
    | _ => exact ih

theorem framed_append_isStat (l : List I2cOp) {ops : List I2cOp}
    (hops : ∀ op ∈ ops, op.isStat = true) : framed (l ++ ops) = framed l := by
  induction ops generalizing l with
  | nil => rw [List.append_nil]
  | cons op ops ih =>
    obtain ⟨hop, hops⟩ := List.forall_mem_cons.mp hops
    rw [List.append_cons, ih _ hops]
    cases op with
    | stat => exact framed_concat l nofun rfl
    | _ => cases hop

section
variable (s : I2c)

@[simp] theorem i2cSetStop_framed : framed (i2cSetStop e s).log = true :=
  framed_stop _ (isStop_set _)

@[simp] theorem i2cReadByte_framed : framed (i2cReadByte e s).2.log = framed s.log :=
  framed_concat _ nofun rfl

@[simp] theorem i2cWriteByte_framed (b : Byte) : framed (i2cWriteByte b s).log = framed s.log :=
  framed_concat _ nofun rfl

@[simp] theorem checkTxDone_framed : framed (checkTxDone e s).2.log = framed s.log :=
  framed_append_isStat _ (txClear_isStat _)

@[simp] theorem checkRxDone_framed : framed (checkRxDone e s).2.log = framed s.log :=
  framed_append_isStat _ (rxClear_isStat _)

@[simp] theorem checkStopDone_framed : framed (checkStopDone e s).2.log = framed s.log :=
  framed_append_isStat _ nofun

@[simp] theorem i2cStart_framed (addr rwBit : Byte) :
    framed (i2cStart e addr rwBit s).2.log = false := by
  rw [i2cStart, checkTxDone_framed]
  exact framed_start ..

theorem i2cWrite_one (b : Byte) :
    (i2cWrite e [b] s).1 = (txOk (e.wait (s.now + 1)) && stopOk (e.wait (s.now + 3))) ∧
      framed (i2cWrite e [b] s).2.log = (txOk (e.wait (s.now + 1)) || framed s.log) ∧
      (txOk (e.wait (s.now + 1)) = true → (i2cWrite e [b] s).2.now = s.now + 4) := by
  have htx : checkTxDone e (i2cWriteByte b s) =
      (txOk (e.wait (s.now + 1)), (checkTxDone e (i2cWriteByte b s)).2) := rfl
  rw [i2cWrite, htx]
  cases hok : txOk (e.wait (s.now + 1)) with
  | false => exact ⟨rfl, by simp, nofun⟩
  | true => exact ⟨rfl, by simp [i2cWrite], fun _ => rfl⟩

/-- A read of one byte requests the STOP in front of anything that fails. -/
theorem i2cRead_one_framed : framed (i2cRead e 1 s).2.2.log = true := by
  have hstore (s : I2c) (hs : framed s.log = true) :
      framed (i2cReadStore e 1 0 s).2.2.log = true := by
    simpa [i2cReadStore] using hs
  have hrx : framed (checkRxDone e (i2cReadFirst e 1 0 s)).2.log = true := by
    simp [i2cReadFirst]
  have hpass : framed (i2cReadPass e 1 0 s).2.2.log = true := by
    unfold i2cReadPass
    split
    · next s₁ h => rwa [h] at hrx
    · next s₁ h =>
      rw [h] at hrx
      exact hstore _ hrx
  unfold i2cRead i2cReadLoop
  split
  · next data s₁ h => rwa [h] at hpass
  · next data s₁ h => rwa [h] at hpass

theorem readValue_framed (a : Bool × I2c) :
    framed (readValue e a).2.log = (a.1 || framed a.2.log) := by
  have hread := i2cRead_one_framed e a.2
  obtain ⟨ok, s⟩ := a
  cases ok with
  | false => rfl
  | true =>
    unfold readValue
    simp only at hread ⊢
    split
    · next h => rw [h] at hread; exact hread
    · next h => rw [h] at hread; exact hread

end

@[simp] theorem andThen_fst (a : Bool × I2c) (b : I2c → Bool × I2c) :
    (andThen a b).1 = (a.1 && (b a.2).1) := by
  obtain ⟨ok, s⟩ := a
  cases ok <;> rfl

theorem andThen_framed (a : Bool × I2c) (b : I2c → Bool × I2c) :
    framed (andThen a b).2.log = if a.1 then framed (b a.2).2.log else framed a.2.log := by
  obtain ⟨ok, s⟩ := a
  cases ok <;> rfl

theorem andThen_false {a : Bool × I2c} (h : a.1 = false) (b : I2c → Bool × I2c) :
    andThen a b = (false, a.2) := by
  obtain ⟨ok, s⟩ := a
  cases h
  rfl

theorem andThen_snd {a : Bool × I2c} (h : a.1 = true) (b : I2c → Bool × I2c) :
    (andThen a b).2 = (b a.2).2 := by
  obtain ⟨ok, s⟩ := a
  cases h
  rfl

-- ---------------------------------------------------------------------------
-- Register accesses
-- ---------------------------------------------------------------------------

/-- START and the register's number, the first two bytes of each access. -/
def regSent (t : Nat) : Bool := txOk (e.wait (t + 1)) && txOk (e.wait (t + 3))

theorem selectReg_framed (addr reg : Byte) (s : I2c) :
    framed (andThen (i2cStart e addr 0 s) (i2cWrite e [reg])).2.log = regSent e s.now := by
  obtain ⟨-, hframed, -⟩ := i2cWrite_one e (i2cStart e addr 0 s).2 reg
  rw [andThen_framed, hframed, i2cStart_framed]
  show (if txOk (e.wait (s.now + 1)) then txOk (e.wait (s.now + 3)) || false else false) = _
  rw [regSent]
  cases txOk (e.wait (s.now + 1)) <;> simp

theorem selectReg_fst (addr reg : Byte) (s : I2c) :
    (andThen (i2cStart e addr 0 s) (i2cWrite e [reg])).1 =
      (regSent e s.now && stopOk (e.wait (s.now + 5))) := by
  obtain ⟨hok, -, -⟩ := i2cWrite_one e (i2cStart e addr 0 s).2 reg
  rw [andThen_fst, hok, regSent, Bool.and_assoc]
  rfl

theorem selectReg_now (addr reg : Byte) (s : I2c)
    (h : (andThen (i2cStart e addr 0 s) (i2cWrite e [reg])).1 = true) :
    (andThen (i2cStart e addr 0 s) (i2cWrite e [reg])).2.now = s.now + 6 := by
  rw [selectReg_fst, Bool.and_eq_true, regSent, Bool.and_eq_true] at h
  obtain ⟨⟨hstart, hreg⟩, -⟩ := h
  obtain ⟨-, -, hnow⟩ := i2cWrite_one e (i2cStart e addr 0 s).2 reg
  rw [andThen_snd hstart, hnow hreg]
  rfl

theorem restart_framed (addr reg rwBit : Byte) (s : I2c) :
    let a := andThen (andThen (i2cStart e addr 0 s) (i2cWrite e [reg])) (i2cStart e addr rwBit)
    a.1 = (regSent e s.now && stopOk (e.wait (s.now + 5)) && txOk (e.wait (s.now + 7))) ∧
      framed a.2.log = (regSent e s.now && !stopOk (e.wait (s.now + 5))) ∧
      (a.1 = true → a.2.now = s.now + 8) := by
  have hfst := selectReg_fst e addr reg s
  have hframed := selectReg_framed e addr reg s
  have hnow := selectReg_now e addr reg s
  set sel := andThen (i2cStart e addr 0 s) (i2cWrite e [reg]) with hsel
  cases hok : sel.1 with
  | false =>
    rw [hok] at hfst
    simp only [andThen_false hok, hframed, ← hfst]
    refine ⟨rfl, ?_, nofun⟩
    cases hreg : regSent e s.now with
    | false => rfl
    | true => simpa [hreg] using hfst
  | true =>
    rw [hok] at hfst
    have hnow := hnow hok
    have hstart : (i2cStart e addr rwBit sel.2).1 = txOk (e.wait (s.now + 7)) := by
      show txOk (e.wait (sel.2.now + 1)) = _
      rw [hnow]
    have hstop : stopOk (e.wait (s.now + 5)) = true := (Bool.and_eq_true_iff.mp hfst.symm).2
    refine ⟨?_, ?_, fun _ => ?_⟩
    · rw [andThen_fst, hok, hstart, ← hfst]
    · rw [andThen_snd hok, i2cStart_framed, hstop, Bool.not_true, Bool.and_false]
    · rw [andThen_snd hok]
      show sel.2.now + 2 = _
      rw [hnow]

theorem regRead_framed (addr reg : Byte) (s : I2c) :
    framed (readValue e (andThen (andThen (i2cStart e addr 0 s) (i2cWrite e [reg]))
        (i2cStart e addr 1))).2.log =
      (regSent e s.now && (!stopOk (e.wait (s.now + 5)) || txOk (e.wait (s.now + 7)))) := by
  obtain ⟨hok, hframed, -⟩ := restart_framed e addr reg 1 s
  rw [readValue_framed, hok, hframed]
  cases regSent e s.now <;> cases stopOk (e.wait (s.now + 5)) <;> simp

theorem emcSetRegByte_framed (reg val : Byte) (s : I2c) :
    framed (emcSetRegByte e reg val s).2.log =
      (regSent e s.now && txOk (e.wait (s.now + 5))) := by
  have hfst : (andThen (i2cStart e emc2303Addr 0 s) (i2cWriteByteNoStop e reg)).1 =
      regSent e s.now := by
    rw [andThen_fst]
    rfl
  have hframed : framed (andThen (i2cStart e emc2303Addr 0 s) (i2cWriteByteNoStop e reg)).2.log =
      false := by
    rw [andThen_framed, i2cStart_framed, i2cWriteByteNoStop, checkTxDone_framed,
      i2cWriteByte_framed, i2cStart_framed, ite_self]
  rw [emcSetRegByte, andThen_framed, hfst, hframed]
  cases hsent : regSent e s.now with
  | false => rfl
  | true =>
    obtain ⟨hstart, -⟩ := Bool.and_eq_true_iff.mp hsent
    have hwrite := (i2cWrite_one e
      (andThen (i2cStart e emc2303Addr 0 s) (i2cWriteByteNoStop e reg)).2 val).2.1
    rw [if_pos rfl, hwrite, hframed, Bool.or_false, Bool.true_and, andThen_snd hstart]
    rfl

theorem ledsSetRegByte_framed (reg val : Byte) (s : I2c) :
    framed (ledsSetRegByte e reg val s).2.log =
      (regSent e s.now && (!stopOk (e.wait (s.now + 5)) ||
        (txOk (e.wait (s.now + 7)) && txOk (e.wait (s.now + 9))))) := by
  obtain ⟨hok, hframed, hnow⟩ := restart_framed e ledsAddr reg 0 s
  rw [ledsSetRegByte, andThen_framed, hframed]
  have hwrite := (i2cWrite_one e (andThen (andThen (i2cStart e ledsAddr 0 s) (i2cWrite e [reg]))
    (i2cStart e ledsAddr 0)).2 val).2.1
  cases hall : regSent e s.now && stopOk (e.wait (s.now + 5)) && txOk (e.wait (s.now + 7)) with
  | false =>
    rw [hok, hall, if_neg Bool.false_ne_true]
    cases hsent : regSent e s.now <;> cases hstop : stopOk (e.wait (s.now + 5)) <;>
      simp_all
  | true =>
    obtain ⟨hall', htx⟩ := Bool.and_eq_true_iff.mp hall
    obtain ⟨hsent, hstop⟩ := Bool.and_eq_true_iff.mp hall'
    rw [hok, hall, if_pos rfl, hwrite, hframed, hnow (hok.trans hall), hsent, hstop, htx]
    simp

/-- Reads and writes without error have the framing of the controller. A
register access requests a STOP behind each START exactly when each byte in
front of the request is acknowledged. -/
theorem i2c_framing :
    (∀ len s data s', 1 ≤ len → i2cRead e len s = (true, data, s') →
      data.length = len ∧ ∃ dummy stop, I2cOp.isStop stop = true ∧
        wire s'.log = wire s.log ++ readFrame dummy data stop) ∧
    (∀ data s s', i2cWrite e data s = (true, s') →
      ∃ stop, I2cOp.isStop stop = true ∧ wire s'.log = wire s.log ++ writeFrame data stop) ∧
    ∀ (reg val : Byte) (t : Nat),
      (framed (emcGetRegByte e reg ⟨t, []⟩).2.log ↔
        regSent e t ∧ (stopOk (e.wait (t + 5)) → txOk (e.wait (t + 7)))) ∧
      (framed (emcSetRegByte e reg val ⟨t, []⟩).2.log ↔ regSent e t ∧ txOk (e.wait (t + 5))) ∧
      (framed (ledsGetRegByte e reg ⟨t, []⟩).2.log ↔
        regSent e t ∧ (stopOk (e.wait (t + 5)) → txOk (e.wait (t + 7)))) ∧
      (framed (ledsSetRegByte e reg val ⟨t, []⟩).2.log ↔
        regSent e t ∧
          (stopOk (e.wait (t + 5)) → txOk (e.wait (t + 7)) ∧ txOk (e.wait (t + 9)))) := by
  refine ⟨fun len s data s' hlen h => i2cRead_wire e hlen h,
    fun data s s' h => i2cWrite_wire e h, fun reg val t => ⟨?_, ?_, ?_, ?_⟩⟩
  · rw [emcGetRegByte, regRead_framed]
    simp [Bool.or_eq_true, imp_iff_not_or]
  · rw [emcSetRegByte_framed]
    simp
  · rw [ledsGetRegByte, regRead_framed]
    simp [Bool.or_eq_true, imp_iff_not_or]
  · rw [ledsSetRegByte_framed]
    simp [Bool.or_eq_true, imp_iff_not_or]

end

/-- A controller whose transmit status is `stat` at all times. -/
def steadyEnv (stat : Byte) : I2cEnv :=
  ⟨fun _ => ⟨0, fun _ => stat⟩, fun _ => 0, fun _ => 0⟩

/-- An address that is not acknowledged: no STOP. -/
theorem emcSetRegByte_no_stop :
    (emcSetRegByte (steadyEnv 0x31) 0x37 0x04 ⟨0, []⟩).1 = false ∧
      framed (emcSetRegByte (steadyEnv 0x31) 0x37 0x04 ⟨0, []⟩).2.log = false := by
  decide

end ItxLlama.Llama
