import ItxLlama.Seabios.DiskBounds
import ItxLlama.Seabios.DiskTransfer

/-!
# Which transfer counts are honest

For each driver, exactly when the count that `process_op` leaves is one the
device has earned: the whole count on success, never more than was asked
for, and never more than the leading sectors that were transferred.
-/

namespace ItxLlama.Seabios

open Lib.Word

structure Honest (n : Nat) (e : DriverEnd) : Prop where
  success : e.ret = 0 → e.count = n
  atMost : e.count ≤ n
  done : e.count ≤ e.transferred

theorem le_leading {p : Nat → Bool} :
    c ≤ leading p i n ↔ c ≤ n ∧ ∀ j < c, p (i + j) = true := by
  induction n generalizing c i with
  | zero =>
    rw [leading]
    refine (and_iff_left_of_imp fun hc j hj => ?_).symm
    omega
  | succ n ih =>
    rw [leading]
    by_cases hp : p i = true
    · rw [if_pos hp]
      cases c with
      | zero => simp
      | succ c =>
        rw [Nat.succ_le_succ_iff, ih, Nat.succ_le_succ_iff]
        refine and_congr_right fun _ => ⟨fun h j hj => ?_, fun h j hj => ?_⟩
        · cases j with
          | zero => exact hp
          | succ j =>
            rw [show i + (j + 1) = i + 1 + j by omega]
            exact h j (by omega)
        · rw [show i + 1 + j = i + (j + 1) by omega]
          exact h (j + 1) (by omega)
    · rw [if_neg hp]
      constructor
      · intro hc
        refine ⟨by omega, fun j hj => by omega⟩
      · rintro ⟨-, h⟩
        by_contra hc
        exact hp (h 0 (by omega))

-- ---------------------------------------------------------------------------
-- PIO
-- ---------------------------------------------------------------------------

/-- The statuses of the first `k` sectors let the loop go on. -/
def GoesOnBelow (pio : Nat → Poll) (k : Nat) : Prop :=
  ∀ j < k, ∃ status, pio j = some status ∧ goesOn status = true

/-- How the loop over `n` sectors ends: on a timeout, short of the last
sector, or with the last sector. -/
inductive PioCase (iswrite : Bool) (pio : Nat → Poll) (n : Nat) : PioEnd → Prop
  | timeout (j : Nat) (hj : j < n) (hgo : GoesOnBelow pio j) (h : pio j = none) :
      PioCase iswrite pio n ⟨-1, n - j, j + 1⟩
  | short (j status : Nat) (hj : j + 1 < n) (hgo : GoesOnBelow pio j) (h : pio j = some status)
      (hstop : goesOn status = false) : PioCase iswrite pio n ⟨-6, n - (j + 1), j + 1⟩
  | last (status : Nat) (hgo : GoesOnBelow pio (n - 1)) (h : pio (n - 1) = some status) :
      PioCase iswrite pio n ⟨if status &&& endMask iswrite ≠ 0 then -7 else 0, 0, n⟩

theorem pioLoop_case (hgo : GoesOnBelow pio k) (hc : 0 < count) (hn : k + count = n) :
    PioCase iswrite pio n (pioLoop iswrite pio k count) := by
  induction count generalizing k with
  | zero => omega
  | succ count ih =>
    rw [pioLoop]
    cases h : pio k with
    | none =>
      have : PioCase iswrite pio n _ := .timeout k (by omega) hgo h
      rwa [show n - k = count + 1 by omega] at this
    | some status =>
      dsimp only
      by_cases hz : count = 0
      · rw [if_pos hz]
        obtain rfl : k = n - 1 := by omega
        have : PioCase iswrite pio n _ := .last status hgo h
        rwa [show n - 1 + 1 = n by omega]
      · rw [if_neg hz]
        by_cases hs : goesOn status = true
        · rw [if_pos hs]
          refine ih (fun j hj => ?_) (by omega) (by omega)
          rcases Nat.lt_succ_iff_lt_or_eq.mp hj with hj | rfl
          · exact hgo j hj
          · exact ⟨status, h, hs⟩
        · rw [if_neg hs]
          have : PioCase iswrite pio n _ :=
            .short k status (by omega) hgo h (Bool.not_eq_true _ ▸ hs)
          rwa [show n - (k + 1) = count by omega] at this

/-- A write over PIO on which the statuses say the same as the count: none
that the loop reads before the last sector reports an error, unless the
transfer gets to its last sector and fails there. -/
def WriteClean (pio : Nat → Poll) (n : Nat) : Prop :=
  (∀ k status, k + 1 < n → GoesOnBelow pio k → pio k = some status →
    reportsError status = false) ∨
  (GoesOnBelow pio (n - 1) ∧ ∃ status, pio (n - 1) = some status ∧ status &&& endMask true ≠ 0)

theorem drq_of_goesOn (h : goesOn status = true) : status &&& ataCbStatDrq ≠ 0 := by
  have heq : status &&& (ataCbStatBsy ||| ataCbStatDrq ||| ataCbStatErr) = ataCbStatDrq := by
    simpa [goesOn] using h
  have hsub : status &&& ataCbStatDrq = ataCbStatDrq := by
    calc status &&& ataCbStatDrq
        = (status &&& (ataCbStatBsy ||| ataCbStatDrq ||| ataCbStatErr)) &&& ataCbStatDrq := by
          rw [Nat.and_assoc]
          rfl
      _ = ataCbStatDrq := by rw [heq]; rfl
  rw [hsub]
  decide

theorem reportsError_of_end (h : status &&& endMask true = 0) : reportsError status = false := by
  have hsub : status &&& (ataCbStatErr ||| ataCbStatDf) = 0 := by
    calc status &&& (ataCbStatErr ||| ataCbStatDf)
        = (status &&& endMask true) &&& (ataCbStatErr ||| ataCbStatDf) := by
          rw [Nat.and_assoc]
          rfl
      _ = 0 := by rw [h]; rfl
  simp [reportsError, hsub]

section

variable {op : DiskOp} {dev : AtaDevice}

/-- Whatever the loop counts has been accepted, one sector at a time. -/
theorem PioCase.accepted_read (h : PioCase false dev.pio n e) (hwait : ataWaitData dev = 0) :
    ∀ j < e.moved, pioAccepted false dev j = true := by
  have hfirst : pioAccepted false dev 0 = true := by
    unfold ataWaitData at hwait
    cases hd : dev.waitData with
    | none => simp [hd] at hwait
    | some status =>
      simp only [hd] at hwait
      split at hwait
      · simp at hwait
      · split at hwait
        · simp at hwait
        next hdrq => simpa [pioAccepted, hd] using hdrq
  have hnext : ∀ k, GoesOnBelow dev.pio k → ∀ j < k + 1, pioAccepted false dev j = true := by
    intro k hgo j hj
    cases j with
    | zero => exact hfirst
    | succ j =>
      obtain ⟨status, hs, hg⟩ := hgo j (by omega)
      simpa [pioAccepted, hs] using drq_of_goesOn hg
  cases h with
  | timeout j hj hgo h => exact hnext j hgo
  | short j status hj hgo h hstop => exact hnext j hgo
  | last status hgo h =>
    intro j hj
    exact hnext (n - 1) hgo j (by simp only at hj; omega)

theorem pioAccepted_write (k : Nat) :
    pioAccepted true dev k = true ↔
      ∃ status, dev.pio k = some status ∧ reportsError status = false := by
  simp only [pioAccepted, if_true, Option.any_eq_true, Bool.not_eq_true']

/-- Where the loop stops at `j`, the sectors before it are those it went on
from. -/
theorem goesOnBelow_iff {pio : Nat → Poll} (hgo : GoesOnBelow pio j)
    (hstop : ∀ status, pio j = some status → goesOn status = false) :
    GoesOnBelow pio k ↔ k ≤ j := by
  constructor
  · intro h
    by_contra hlt
    obtain ⟨status, hs, hg⟩ := h j (by omega)
    rw [hstop status hs] at hg
    cases hg
  · intro hle i hi
    exact hgo i (by omega)

theorem writeClean_timeout (hj : j < n) (hgo : GoesOnBelow dev.pio j) (h : dev.pio j = none) :
    WriteClean dev.pio n ↔ ∀ k < j, pioAccepted true dev k = true := by
  have hbelow : ∀ k, GoesOnBelow dev.pio k ↔ k ≤ j := fun k =>
    goesOnBelow_iff hgo (by simp [h])
  constructor
  · rintro (hclean | ⟨hlast, status, hs, -⟩) k hk
    · obtain ⟨status, hs, -⟩ := hgo k hk
      exact (pioAccepted_write k).mpr
        ⟨status, hs, hclean k status (by omega) ((hbelow k).mpr (by omega)) hs⟩
    · have := (hbelow (n - 1)).mp hlast
      obtain rfl : j = n - 1 := by omega
      simp [h] at hs
  · intro hacc
    refine .inl fun k status _ hk hs => ?_
    rcases Nat.lt_or_eq_of_le ((hbelow k).mp hk) with hlt | rfl
    · obtain ⟨status', hs', hr⟩ := (pioAccepted_write k).mp (hacc k hlt)
      obtain rfl := Option.some.inj (hs.symm.trans hs')
      exact hr
    · simp [h] at hs

theorem writeClean_short (hj : j + 1 < n) (hgo : GoesOnBelow dev.pio j)
    (h : dev.pio j = some status) (hstop : goesOn status = false) :
    WriteClean dev.pio n ↔ ∀ k < j + 1, pioAccepted true dev k = true := by
  have hbelow : ∀ k, GoesOnBelow dev.pio k ↔ k ≤ j := fun k =>
    goesOnBelow_iff hgo fun s hs => by
      obtain rfl := Option.some.inj (h.symm.trans hs)
      exact hstop
  constructor
  · rintro (hclean | ⟨hlast, -⟩) k hk
    · have hpoll : ∃ s, dev.pio k = some s := by
        rcases Nat.lt_succ_iff_lt_or_eq.mp hk with hlt | rfl
        · obtain ⟨s, hs, -⟩ := hgo k hlt
          exact ⟨s, hs⟩
        · exact ⟨status, h⟩
      obtain ⟨s, hs⟩ := hpoll
      exact (pioAccepted_write k).mpr
        ⟨s, hs, hclean k s (by omega) ((hbelow k).mpr (by omega)) hs⟩
    · have := (hbelow (n - 1)).mp hlast
      omega
  · intro hacc
    refine .inl fun k s _ hk hs => ?_
    obtain ⟨s', hs', hr⟩ := (pioAccepted_write k).mp
      (hacc k (Nat.lt_succ_of_le ((hbelow k).mp hk)))
    obtain rfl := Option.some.inj (hs.symm.trans hs')
    exact hr

theorem writeClean_last (hgo : GoesOnBelow dev.pio (n - 1)) (h : dev.pio (n - 1) = some status)
    (hok : status &&& endMask true = 0) :
    WriteClean dev.pio n ↔ ∀ k < n, pioAccepted true dev k = true := by
  constructor
  · rintro (hclean | ⟨-, s, hs, hbad⟩) k hk
    · rcases Nat.lt_or_eq_of_le (Nat.le_sub_one_of_lt hk) with hlt | rfl
      · obtain ⟨s, hs, -⟩ := hgo k hlt
        exact (pioAccepted_write k).mpr
          ⟨s, hs, hclean k s (by omega) (fun i hi => hgo i (by omega)) hs⟩
      · exact (pioAccepted_write _).mpr ⟨status, h, reportsError_of_end hok⟩
    · obtain rfl := Option.some.inj (h.symm.trans hs)
      exact absurd hok hbad
  · intro hacc
    refine .inl fun k s hk _ hs => ?_
    obtain ⟨s', hs', hr⟩ := (pioAccepted_write k).mp (hacc k (by omega))
    obtain rfl := Option.some.inj (hs.symm.trans hs')
    exact hr

end

-- ---------------------------------------------------------------------------
-- The drivers
-- ---------------------------------------------------------------------------

/-- `process_op`'s reading of an error with the count as it was. -/
def settle (n : Nat) (e : DriverEnd) : DriverEnd :=
  if e.ret ≠ 0 ∧ e.count = n then { e with count := 0 } else e

theorem processOp_eq (op : DiskOp) (dev : Device) :
    processOp op dev = settle op.count (dev.transfer op) :=
  rfl

theorem honest_settle_unchanged (hret : ret ≠ 0) : Honest n (settle n ⟨ret, n, t⟩) := by
  rw [settle, if_pos ⟨hret, rfl⟩]
  exact ⟨fun h => absurd h hret, Nat.zero_le _, Nat.zero_le _⟩

theorem honest_settle_success : Honest n (settle n ⟨0, n, t⟩) ↔ n ≤ t := by
  rw [settle, if_neg (by simp)]
  exact ⟨fun h => h.done, fun h => ⟨fun _ => rfl, le_rfl, h⟩⟩

theorem honest_settle_error (hret : ret ≠ 0) (hc : c < n) :
    Honest n (settle n ⟨ret, c, t⟩) ↔ c ≤ t := by
  rw [settle, if_neg (by simp only; omega)]
  exact ⟨fun h => h.done, fun h => ⟨fun h' => absurd h' hret, by simp only; omega, h⟩⟩

theorem diskRet_error (hret : ret ≠ 0) :
    (DriverEnd.mk ret c t).diskRet = ⟨(diskRetEbadtrack : Nat), c, t⟩ := by
  simp [DriverEnd.diskRet, hret]

theorem diskRet_success : (DriverEnd.mk 0 c t).diskRet = ⟨0, c, t⟩ := rfl

theorem diskRetEbadtrack_ne : ((diskRetEbadtrack : Nat) : Int) ≠ 0 := by decide

theorem honest_refused (hret : ret ≠ 0) :
    Honest n (settle n (DriverEnd.mk ret n t).diskRet) := by
  rw [diskRet_error hret]
  exact honest_settle_unchanged diskRetEbadtrack_ne

section

variable {op : DiskOp} {dev : AtaDevice}

/-- The statuses on which an ATA transfer's count is honest. A read over PIO
always is. -/
def AtaDevice.Clean (op : DiskOp) (iomaster : Nat) (dev : AtaDevice) : Prop :=
  if (ataTryDma op iomaster).isNone then
    sendCmd dev ≠ 0 ∨ ataWaitData dev ≠ 0 ∨ op.iswrite = false ∨ WriteClean dev.pio op.count
  else
    sendCmd dev ≠ 0 ∨ ¬ (bmDone dev ∧ ideDone dev) ∨ dev.bmStatus &&& bmStatusError = 0

theorem pioCmdData_eq (hsend : sendCmd dev = 0) (hwait : ataWaitData dev = 0)
    (hpos : 0 < op.count) :
    ∃ e, PioCase op.iswrite dev.pio op.count e ∧ ataPioCmdData op dev =
      ⟨e.ret, u16 (op.count + 2 ^ 32 - e.left),
        leading (pioAccepted op.iswrite dev) 0 e.moved⟩ := by
  refine ⟨_, pioLoop_case (k := 0) (fun j hj => by omega) hpos (Nat.zero_add _), ?_⟩
  rw [ataPioCmdData, if_neg (by simp [hsend]), if_neg (by simp [hwait]), ataPioTransfer,
    if_neg (by omega)]

theorem u16_sub (hn : n < 2 ^ 16) (hle : k ≤ n) : u16 (n + 2 ^ 32 - k) = n - k := by
  unfold u16
  omega

/-- The count of a PIO transfer is honest exactly where the sectors it names
have each been accepted; of a read they always have. -/
theorem pio_honest_iff (hcase : PioCase op.iswrite dev.pio op.count e)
    (hwait : ataWaitData dev = 0) (hcount : op.count < 2 ^ 16) :
    Honest op.count (settle op.count (DriverEnd.mk e.ret (u16 (op.count + 2 ^ 32 - e.left))
        (leading (pioAccepted op.iswrite dev) 0 e.moved)).diskRet) ↔
      op.iswrite = false ∨ WriteClean dev.pio op.count := by
  have hread : op.iswrite = false → ∀ j < e.moved, pioAccepted op.iswrite dev j = true := by
    intro hr
    rw [hr] at hcase ⊢
    exact hcase.accepted_read hwait
  have hsplit : ∀ c ≤ e.moved, (op.iswrite = true → (WriteClean dev.pio op.count ↔
      ∀ k < c, pioAccepted true dev k = true)) →
      (c ≤ leading (pioAccepted op.iswrite dev) 0 e.moved ↔
        op.iswrite = false ∨ WriteClean dev.pio op.count) := by
    intro c hc hw
    simp only [le_leading, Nat.zero_add]
    cases hrw : op.iswrite with
    | false =>
      rw [hrw] at hread
      simpa using ⟨hc, fun j hj => hread rfl j (by omega)⟩
    | true => simpa [hc] using (hw hrw).symm
  cases hcase with
  | timeout j hj hgo h =>
    dsimp only at hsplit ⊢
    rw [diskRet_error (by decide), u16_sub hcount (by omega),
      honest_settle_error diskRetEbadtrack_ne (by omega), Nat.sub_sub_self (by omega)]
    exact hsplit j (Nat.le_succ j) fun _ => writeClean_timeout hj hgo h
  | short j status hj hgo h hstop =>
    dsimp only at hsplit ⊢
    rw [diskRet_error (by decide), u16_sub hcount (by omega),
      honest_settle_error diskRetEbadtrack_ne (by omega), Nat.sub_sub_self (by omega)]
    exact hsplit (j + 1) le_rfl fun _ => writeClean_short hj hgo h hstop
  | last status hgo h =>
    dsimp only at hsplit ⊢
    rw [u16_sub hcount (by omega), Nat.sub_zero]
    by_cases hend : status &&& endMask op.iswrite = 0
    · rw [if_neg (by simp [hend]), diskRet_success]
      refine honest_settle_success.trans (hsplit op.count le_rfl fun hw => ?_)
      rw [hw] at hend
      exact writeClean_last hgo h hend
    · rw [if_pos hend]
      refine iff_of_true (honest_refused (by decide)) ?_
      cases hw : op.iswrite with
      | false => exact .inl rfl
      | true => exact .inr (.inr ⟨hgo, status, h, hw ▸ hend⟩)

theorem ataPio_honest_iff (hpos : 0 < op.count) (hcount : op.count < 2 ^ 16) :
    Honest op.count (settle op.count (ataPioCmdData op dev).diskRet) ↔
      sendCmd dev ≠ 0 ∨ ataWaitData dev ≠ 0 ∨ op.iswrite = false ∨
        WriteClean dev.pio op.count := by
  by_cases hsend : sendCmd dev = 0
  · by_cases hwait : ataWaitData dev = 0
    · obtain ⟨e, hcase, heq⟩ := pioCmdData_eq hsend hwait hpos
      rw [heq, or_iff_right (not_not.mpr hsend), or_iff_right (not_not.mpr hwait)]
      exact pio_honest_iff hcase hwait hcount
    · rw [ataPioCmdData, if_neg (not_not.mpr hsend), if_pos hwait]
      exact iff_of_true (honest_refused hwait) (.inr (.inl hwait))
  · rw [ataPioCmdData, if_pos hsend]
    exact iff_of_true (honest_refused hsend) (.inl hsend)

theorem ataDma_honest_iff (hpos : 0 < op.count) :
    Honest op.count (settle op.count (ataDmaCmdData op dev).diskRet) ↔
      sendCmd dev ≠ 0 ∨ ¬ (bmDone dev ∧ ideDone dev) ∨ dev.bmStatus &&& bmStatusError = 0 := by
  by_cases hsend : sendCmd dev = 0
  · rw [ataDmaCmdData, if_neg (not_not.mpr hsend), or_iff_right (not_not.mpr hsend)]
    by_cases hdone : bmDone dev = true ∧ ideDone dev = true
    · rw [if_pos hdone, or_iff_right (not_not.mpr hdone), diskRet_success, honest_settle_success]
      by_cases herr : dev.bmStatus &&& bmStatusError = 0
      · rw [if_pos ⟨hdone.1, hdone.2, herr⟩]
        exact iff_of_true le_rfl herr
      · rw [if_neg fun h => herr h.2.2]
        exact iff_of_false (by omega) herr
    · rw [if_neg hdone]
      exact iff_of_true (honest_refused (by decide)) (.inl hdone)
  · rw [ataDmaCmdData, if_pos hsend]
    exact iff_of_true (honest_refused hsend) (.inl hsend)

theorem ataReadwrite_honest_iff (hpos : 0 < op.count) (hcount : op.count < 2 ^ 16) :
    Honest op.count (settle op.count (ataReadwrite op iomaster dev)) ↔ dev.Clean op iomaster := by
  unfold ataReadwrite AtaDevice.Clean
  split
  · exact ataPio_honest_iff hpos hcount
  · exact ataDma_honest_iff hpos

end

-- ---------------------------------------------------------------------------
-- USB mass storage and ramdisks
-- ---------------------------------------------------------------------------

/-- The wrappers on which the count is honest: a phase error, a success with
nothing left over, or a failure whose residue takes off whole sectors of the
transfer, or comes to none or all of them. -/
def Csw.Clean (csw : Csw) (n blocksize : Nat) : Prop :=
  if csw.status = 0 then csw.dataResidue = 0
  else csw.status = 2 ∨ csw.dataResidue.toNat / blocksize % 2 ^ 16 = 0 ∨
    csw.dataResidue.toNat / blocksize % 2 ^ 16 = n ∨
    (csw.dataResidue.toNat ≤ n * blocksize ∧ blocksize ∣ csw.dataResidue.toNat)

def UsbDevice.Clean (op : DiskOp) (dev : UsbDevice) : Prop :=
  dev.sendCbw = false ∨ dev.sendData = false ∨ ∀ csw ∈ dev.csw, csw.Clean op.count dev.blksize

def Device.Clean (op : DiskOp) : Device → Prop
  | ata iomaster dev => dev.Clean op iomaster
  | usb dev => dev.Clean op
  | ramdisk carry => carry = true ∨ op.count ≤ 128

theorem blksize_bounds (dev : UsbDevice) : 0 < dev.blksize ∧ dev.blksize ≤ 2048 := by
  unfold UsbDevice.blksize
  split <;> decide

/-- The residue of a failed command: what it takes off the count, in 16
bits, against the sectors that the device has processed. -/
theorem residue_honest_iff {residue b n : Nat} (hret : ret ≠ 0) (hb : 0 < b) (hn : n < 2 ^ 16)
    (hr : residue < 2 ^ 32) :
    Honest n (settle n ⟨ret, u16 (n + 2 ^ 32 - residue / b), (n * b - residue) / b⟩) ↔
      residue / b % 2 ^ 16 = 0 ∨ residue / b % 2 ^ 16 = n ∨
        (residue ≤ n * b ∧ b ∣ residue) := by
  have hq : residue / b ≤ residue := Nat.div_le_self _ _
  generalize hqd : residue / b = q at hq ⊢
  by_cases hz : q % 2 ^ 16 = 0
  · have hc : u16 (n + 2 ^ 32 - q) = n := by
      unfold u16
      omega
    rw [hc]
    exact iff_of_true (honest_settle_unchanged hret) (.inl hz)
  by_cases hqn : q % 2 ^ 16 = n
  · have hc : u16 (n + 2 ^ 32 - q) = 0 := by
      unfold u16
      omega
    rw [hc, honest_settle_error hret (by omega)]
    exact iff_of_true (Nat.zero_le _) (.inr (.inl hqn))
  rw [or_iff_right hz, or_iff_right hqn]
  by_cases hle : residue ≤ n * b
  · have hqle : q ≤ n := hqd ▸ Nat.div_le_of_le_mul (Nat.mul_comm n b ▸ hle)
    have hqb : q * b ≤ residue := hqd ▸ Nat.div_mul_le_self residue b
    rw [u16_sub hn hqle, honest_settle_error hret (by omega), Nat.le_div_iff_mul_le hb, Nat.sub_mul]
    have hnb : q * b ≤ n * b := Nat.mul_le_mul_right b hqle
    constructor
    · intro h
      exact ⟨hle, ⟨q, by rw [Nat.mul_comm b q]; omega⟩⟩
    · rintro ⟨-, k, hk⟩
      have hqk : q = k := by rw [← hqd, hk, Nat.mul_div_cancel_left k hb]
      rw [hk, hqk, Nat.mul_comm b k]
  · refine iff_of_false (fun h => ?_) fun h => hle h.1
    have ht : (n * b - residue) / b = 0 := by
      rw [Nat.sub_eq_zero_of_le (by omega), Nat.zero_div]
    have hc : u16 (n + 2 ^ 32 - q) ≠ n ∧ u16 (n + 2 ^ 32 - q) ≠ 0 := by
      unfold u16
      omega
    have hd := h.done
    rw [settle, if_neg fun h' => hc.1 h'.2, ht] at hd
    exact hc.2 (Nat.le_zero.mp hd)

theorem usb_honest_iff {op : DiskOp} {dev : UsbDevice} (hpos : 0 < op.count)
    (hcount : op.count < 2 ^ 16) :
    Honest op.count (settle op.count (usbCmdData op dev)) ↔ dev.Clean op := by
  obtain ⟨hb, hb'⟩ := blksize_bounds dev
  have hmul : dev.blksize * op.count < 2 ^ 32 :=
    Nat.lt_of_le_of_lt (Nat.mul_le_mul hb' (Nat.le_of_lt hcount)) (by decide)
  have hbytes : u32 (dev.blksize * op.count) = op.count * dev.blksize := by
    rw [u32_eq hmul, Nat.mul_comm]
  have hne : op.count * dev.blksize ≠ 0 := Nat.pos_iff_ne_zero.mp (Nat.mul_pos hpos hb)
  have hrefused : Honest op.count (settle op.count ⟨(diskRetEbadtrack : Nat), op.count, 0⟩) :=
    honest_settle_unchanged diskRetEbadtrack_ne
  unfold usbCmdData UsbDevice.Clean
  simp only [hbytes, hne, ne_eq, not_false_eq_true, true_and, Bool.not_eq_true']
  by_cases hcbw : dev.sendCbw = false
  · rw [if_pos hcbw]
    exact iff_of_true hrefused (.inl hcbw)
  rw [if_neg hcbw, or_iff_right hcbw]
  by_cases hdata : dev.sendData = false
  · rw [if_pos hdata]
    exact iff_of_true hrefused (.inl hdata)
  rw [if_neg hdata, or_iff_right hdata]
  cases dev.csw with
  | none => exact iff_of_true hrefused (by simp)
  | some csw =>
    simp only [Option.mem_some_iff, forall_eq', Csw.Clean]
    by_cases hs0 : csw.status = 0
    · rw [if_pos hs0, if_pos hs0]
      refine honest_settle_success.trans ?_
      rw [Csw.sectors, Nat.le_div_iff_mul_le hb, ← UInt32.toNat_inj, UInt32.toNat_zero]
      omega
    · rw [if_neg hs0, if_neg hs0]
      by_cases hs2 : csw.status = 2
      · rw [if_pos hs2]
        exact iff_of_true hrefused (.inl hs2)
      · rw [if_neg hs2, or_iff_right hs2, if_pos (by omega)]
        exact residue_honest_iff diskRetEbadtrack_ne hb hcount csw.dataResidue.toNat_lt

theorem ramdisk_honest_iff {op : DiskOp} (hpos : 0 < op.count) (hcount : op.count < 2 ^ 16) :
    Honest op.count (settle op.count (ramdiskCopy op carry)) ↔ carry = true ∨ op.count ≤ 128 := by
  unfold ramdiskCopy
  by_cases hc : carry = true
  · rw [if_pos hc]
    exact iff_of_true (honest_settle_unchanged diskRetEbadtrack_ne) (.inl hc)
  · rw [if_neg hc, or_iff_right hc]
    refine honest_settle_success.trans ?_
    simp only [movswSpan, ramdiskWords, diskSectorSize, u16]
    omega

-- ---------------------------------------------------------------------------
-- process_op
-- ---------------------------------------------------------------------------

theorem processOp_clean {op : DiskOp} (dev : Device) (hpos : 0 < op.count)
    (hcount : op.count < 2 ^ 16) :
    Honest op.count (processOp op dev) ↔ dev.Clean op := by
  rw [processOp_eq]
  cases dev with
  | ata iomaster dev => exact ataReadwrite_honest_iff hpos hcount
  | usb dev => exact usb_honest_iff hpos hcount
  | ramdisk carry => exact ramdisk_honest_iff hpos hcount

theorem basicAccess_count {dev : Device} (h : basicOp regs d command = some op) :
    (basicAccess (sendDiskOp dev) regs d command).1 ≤ (processOp op dev).count := by
  rw [basicAccess, h]
  exact Nat.mod_le _ _

theorem extendedAccess_count {dev : Device} (h : extendedOp param d command = some op) :
    (extendedAccess (sendDiskOp dev) param d command).1 = (processOp op dev).count := by
  obtain ⟨-, hlt, -⟩ := extendedOp_spec h
  rw [extendedAccess, if_neg (by omega), h]
  rfl

/-- The count of a read or write is honest exactly where its device's
answers are clean; AL and the packet's count then never exceed what was
transferred. -/
theorem processOp_honest_iff {op : DiskOp} {dev : Device} (hpos : 0 < op.count)
    (hcount : op.count < 2 ^ 16) :
    (Honest op.count (processOp op dev) ↔ dev.Clean op) ∧
    (dev.Clean op →
      (∀ regs d command, basicOp regs d command = some op →
        (basicAccess (sendDiskOp dev) regs d command).1 ≤ (processOp op dev).transferred) ∧
      ∀ param d command, extendedOp param d command = some op →
        (extendedAccess (sendDiskOp dev) param d command).1 ≤ (processOp op dev).transferred) := by
  have hiff := processOp_clean dev hpos hcount
  refine ⟨hiff, fun hclean => ⟨fun regs d command h => ?_, fun param d command h => ?_⟩⟩
  · exact Nat.le_trans (basicAccess_count h) (hiff.mpr hclean).done
  · rw [extendedAccess_count h]
    exact (hiff.mpr hclean).done

/-- A USB drive that fails the second of two sectors. -/
theorem processOp_honest_usb :
    let op : DiskOp := ⟨0, 0x10000, 2, cmdRead⟩
    let dev : Device := .usb ⟨false, true, true, some ⟨512, 1⟩⟩
    processOp op dev = ⟨0x0c, 1, 1⟩ ∧ Honest 2 (processOp op dev) :=
  ⟨by decide, (processOp_honest_iff (show 0 < (⟨0, 0x10000, 2, cmdRead⟩ : DiskOp).count by decide)
    (by decide)).1.mpr (.inr (.inr (by simp [Csw.Clean, UsbDevice.blksize, diskSectorSize])))⟩

/-- An ATA disk that takes commands over PIO and reports an error after the
first sector of every write. -/
def failingAta : AtaDevice :=
  { notBsy := some 0x50, olddh := 0xe0, newdh := 0xe0, selected := some 0x50
    waitData := some 0x58, pio := fun _ => some 0x51, bmStatus := 0, ide := none }

/-- The first sector of a write fails and is counted; a residue beyond the
transfer's length makes the count larger than what was asked for. -/
theorem processOp_counts_failed_sector :
    processOp ⟨0, 0x10000, 2, cmdWrite⟩ (.ata 0 failingAta) = ⟨0x0c, 1, 0⟩ ∧
    ¬ Honest 2 (processOp ⟨0, 0x10000, 2, cmdWrite⟩ (.ata 0 failingAta)) ∧
    processOp ⟨0, 0x10000, 2, cmdRead⟩ (.usb ⟨false, true, true, some ⟨0x800, 1⟩⟩) =
      ⟨0x0c, 65534, 0⟩ := by
  have h : processOp ⟨0, 0x10000, 2, cmdWrite⟩ (.ata 0 failingAta) = ⟨0x0c, 1, 0⟩ := by decide
  refine ⟨h, fun hh => ?_, by decide⟩
  have hdone := hh.done
  rw [h] at hdone
  exact absurd hdone (by decide)

end ItxLlama.Seabios
