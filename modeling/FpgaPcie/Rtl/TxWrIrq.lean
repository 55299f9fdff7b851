import FpgaPcie.Rtl.DoneCounter
import FpgaPcie.Rtl.RqStream

/-!
# The C2H done counter

`dma_tx_wr_irq`: from the start of a transfer on it counts what leaves on the RQ interface, and raises
the interrupt when the count has reached the length. On a 512-bit bus it counts payload bytes, in 32
bits.
-/

namespace FpgaPcie

inductive TxWrState
  | idle | start
  deriving DecidableEq

/-- The registers of `dma_tx_wr_irq`. -/
structure TxWrIrq where
  txWrStateReg : TxWrState
  txWrLengthReg : BitVec 32
  txWrStartReg : Bool
  irqCycleReg : BitVec 32
  txWrIrqReg : Bool

namespace TxWrIrq

variable (s : TxWrIrq) (txWrStart : Bool) (txWrLength adds : BitVec 32)

def reset : TxWrIrq := ⟨.idle, 0, false, 0, false⟩

/-- What the 512-bit branch adds for an accepted beat. -/
def rqAdds (rq : RqPins) : BitVec 32 :=
  let eop0Ptr := rq.isRqEop0Ptr.setWidth 32
  let eop1Ptr := rq.isRqEop1Ptr.setWidth 32
  if rq.isRqSop = 0b00 then
    if rq.isRqEop = 0b00 then 64
    else if rq.isRqEop = 0b01 then (eop0Ptr + 1) <<< 2
    else 0
  else if rq.isRqSop = 0b01 then
    if rq.isRqSop0Ptr = 0b00 then
      if rq.isRqEop = 0b01 then (eop0Ptr - 3) <<< 2
      else if rq.isRqEop = 0b00 then 48
      else 0
    else if rq.isRqSop0Ptr = 0b10 then
      if rq.isRqEop = 0b01 then ((eop0Ptr + 1) <<< 2) + 16
      else if rq.isRqEop = 0b11 then ((eop0Ptr + 1) <<< 2) + ((eop1Ptr - 11) <<< 2)
      else 0
    else 0
  else if rq.isRqSop = 0b11 then
    if rq.isRqEop = 0b01 then ((eop0Ptr - 3) <<< 2) + 16
    else if rq.isRqEop = 0b11 then ((eop0Ptr - 3) <<< 2) + ((eop1Ptr - 11) <<< 2)
    else 0
  else 0

/-- `tx_wr_irq_next` -/
def txWrIrqNext : Bool :=
  match s.txWrStateReg with
  | .idle => false
  | .start => decide (s.txWrLengthReg ≤ s.irqCycleReg + adds)

/-- `adds` is what the branch for the bus width adds to the counter. -/
def clock : TxWrIrq :=
  let txWrIrqReg := if s.txWrIrqReg then false else if s.txWrIrqNext adds then true else s.txWrIrqReg
  match s.txWrStateReg with
  | .idle =>
    let edge := txWrStart && !s.txWrStartReg
    { txWrStateReg := if edge then .start else .idle
      txWrLengthReg := if edge then txWrLength else 0
      txWrStartReg := txWrStart
      irqCycleReg := 0
      txWrIrqReg := txWrIrqReg }
  | .start =>
    { txWrStateReg := if s.txWrIrqNext adds then .idle else .start
      txWrLengthReg := s.txWrLengthReg
      txWrStartReg := s.txWrStartReg
      irqCycleReg := s.irqCycleReg + adds
      txWrIrqReg := txWrIrqReg }

/-- The counter reaches the length in this cycle. -/
def reached : Bool := decide (s.txWrLengthReg ≤ s.irqCycleReg + adds)

/-- What it shares with the other counter. -/
def fsm : DoneFsm := ⟨decide (s.txWrStateReg = .start), s.txWrLengthReg.toNat, s.txWrStartReg, s.txWrIrqReg⟩

end TxWrIrq

/-- One cycle of the counter: its inputs, what its branch adds, and the payload bytes that are
transferred. -/
structure TxIrqCycle where
  txWrStart : Bool
  txWrLength : BitVec 32
  adds : BitVec 32
  bytes : ℕ

def TxIrqCycle.inputs (e : TxIrqCycle) : DoneCycle := ⟨e.txWrStart, e.txWrLength.toNat, e.bytes⟩

namespace TxCount

open Arrival (First NotYet upTo)
open DoneTransfer (Taken Complete)

/-- The payload reaches the length in this cycle. -/
def complete (t : DoneTransfer) (e : DoneCycle) : Bool := decide (t.length ≤ t.total + e.bytes)

variable (env : ℕ → TxIrqCycle)

/-- The counter. -/
def irq : ℕ → TxWrIrq
  | 0 => .reset
  | n + 1 => (irq n).clock (env n).txWrStart (env n).txWrLength (env n).adds

def inputs (n : ℕ) : DoneCycle := (env n).inputs

/-- The transfer that the inputs ask for. -/
def transfer (n : ℕ) : DoneTransfer := .run complete (inputs env) n

/-- Every start sets the counter to work. -/
def StartOk : Prop :=
  ∀ n, (transfer env n).starts (inputs env n) = true → (irq env (n + 1)).txWrStateReg = .start

/-- The interrupt is high in the cycle behind the one in which the payload reaches the length. -/
def PulseOk : Prop := ∀ n, (irq env (n + 1)).txWrIrqReg = (transfer env (n + 1)).done

/-- Until then the counter holds the payload bytes. -/
def CountOk : Prop :=
  ∀ n, (transfer env n).due = true → (irq env (n + 1)).irqCycleReg.toNat = (transfer env (n + 1)).total

/-- What is added is the payload, and the sum fits the counter. -/
def Adds (t : DoneTransfer) (e : TxIrqCycle) : Prop :=
  t.due = true → e.adds = BitVec.ofNat 32 e.bytes ∧ t.total + e.bytes < 2 ^ 32

/-- While payload is due, the counter holds what has been transferred. -/
def Holds (s : TxWrIrq) (t : DoneTransfer) : Prop := t.due = true → s.irqCycleReg.toNat = t.total

variable {env} {s : TxWrIrq} {t : DoneTransfer} {e : TxIrqCycle} {n : ℕ}

lemma fsm_step : s.fsm.Step e.inputs (s.reached e.adds) (s.clock e.txWrStart e.txWrLength e.adds).fsm := by
  cases hs : s.txWrStateReg with
  | idle =>
    refine ⟨?_, fun hwork => ?_, ?_, ?_⟩
    · simp [TxWrIrq.fsm, TxWrIrq.clock, TxIrqCycle.inputs, hs]
    · have hedge : (e.txWrStart && !s.txWrStartReg) = true := by simpa [TxWrIrq.fsm, TxWrIrq.clock, hs] using hwork
      simp [TxWrIrq.fsm, TxWrIrq.clock, TxIrqCycle.inputs, hs, hedge]
    · simp [TxWrIrq.fsm, TxWrIrq.clock, TxIrqCycle.inputs, hs]
    · cases hr : s.txWrIrqReg <;> simp [TxWrIrq.fsm, TxWrIrq.clock, TxWrIrq.txWrIrqNext, hs, hr]
  | start =>
    have hnext : s.txWrIrqNext e.adds = s.reached e.adds := by simp [TxWrIrq.txWrIrqNext, TxWrIrq.reached, hs]
    refine ⟨?_, fun _ => ?_, ?_, ?_⟩
    · cases hr : s.reached e.adds <;> simp [TxWrIrq.fsm, TxWrIrq.clock, hs, hnext, hr]
    · simp [TxWrIrq.fsm, TxWrIrq.clock, hs]
    · simp [TxWrIrq.fsm, TxWrIrq.clock, hs]
    · cases hi : s.txWrIrqReg <;> simp [TxWrIrq.fsm, TxWrIrq.clock, hs, hnext, hi]

lemma isRun (env : ℕ → TxIrqCycle) :
    DoneFsm.IsRun (inputs env) (fun n => (irq env n).reached (env n).adds) fun n => (irq env n).fsm :=
  ⟨rfl, fun _ => fsm_step⟩

lemma start_of_due (h : s.fsm.InStep t) (hdue : t.due = true) : s.txWrStateReg = .start :=
  of_decide_eq_true (h.work.trans hdue)

lemma count_clock (h : s.fsm.InStep t) (hdue : t.due = true) :
    (s.clock e.txWrStart e.txWrLength e.adds).irqCycleReg = s.irqCycleReg + e.adds := by
  simp [TxWrIrq.clock, start_of_due h hdue]

lemma count_of_taken (h : s.fsm.InStep t) (ht : t.taken e.inputs = true) :
    (s.clock e.txWrStart e.txWrLength e.adds).irqCycleReg = 0 := by
  cases hs : s.txWrStateReg with
  | idle => simp [TxWrIrq.clock, hs]
  | start =>
    have hdue : t.due = true := h.work.symm.trans (decide_eq_true hs)
    rw [DoneTransfer.taken_of_due hdue] at ht
    cases ht

/-- The pulses are right exactly when the counter agrees with the payload in every cycle. -/
theorem pulseOk_iff : PulseOk env ↔ ∀ n, (transfer env n).due = true →
    (irq env n).reached (env n).adds = complete (transfer env n) (inputs env n) :=
  (isRun env).pulses_iff

/-- With the right pulses, the starts that are lost are those in the cycle of an interrupt. -/
theorem startOk_iff (h : PulseOk env) : StartOk env ↔
    ∀ n, (transfer env n).done = true → (transfer env n).rises (inputs env n) = false := by
  have hwork : StartOk env ↔
      ∀ n, (transfer env n).starts (inputs env n) = true → (irq env (n + 1)).fsm.work = true :=
    forall_congr' fun _ => imp_congr_right fun _ => decide_eq_true_iff.symm
  rw [hwork]
  exact (isRun env).starts_iff h

/-! ### Payload that is counted -/

lemma Adds.toNat_add (ha : Adds t e) (h : Holds s t) (hdue : t.due = true) :
    (s.irqCycleReg + e.adds).toNat = t.total + e.bytes := by
  obtain ⟨hadds, hlt⟩ := ha hdue
  rw [hadds, BitVec.toNat_add, BitVec.toNat_ofNat, h hdue]
  omega

lemma Adds.agrees (ha : Adds t e) (hstep : s.fsm.InStep t) (h : Holds s t) (hdue : t.due = true) :
    s.reached e.adds = complete t e.inputs := by
  have hlength : s.txWrLengthReg.toNat = t.length := hstep.length hdue
  rw [TxWrIrq.reached, complete, Bool.eq_iff_iff, decide_eq_true_iff, decide_eq_true_iff, BitVec.le_def,
    ha.toNat_add h hdue, hlength]
  rfl

lemma adds_of_toNat (h : Holds s t) (hdue : t.due = true)
    (heq : (s.irqCycleReg + e.adds).toNat = t.total + e.bytes) :
    e.adds = BitVec.ofNat 32 e.bytes ∧ t.total + e.bytes < 2 ^ 32 := by
  have hlt := (s.irqCycleReg + e.adds).isLt
  have hadds := e.adds.isLt
  rw [BitVec.toNat_add, h hdue] at heq
  refine ⟨BitVec.eq_of_toNat_eq ?_, by omega⟩
  rw [BitVec.toNat_ofNat]
  omega

lemma Holds.clock (hholds : Holds s t) (h : s.fsm.InStep t) (ha : Adds t e) :
    Holds (s.clock e.txWrStart e.txWrLength e.adds) (t.clock complete e.inputs) := by
  intro hdue
  rcases DoneTransfer.taken_or_due hdue with ht | hdue
  · rw [count_of_taken h ht, (DoneTransfer.clock_of_taken ht).2.2]
    rfl
  · rw [count_clock h hdue, (DoneTransfer.clock_of_due hdue).2.2]
    exact ha.toNat_add hholds hdue

/-- Counter and pulses are right exactly when the payload is what is added, without an overflow. -/
theorem count_iff : CountOk env ∧ PulseOk env ↔ ∀ n, Adds (transfer env n) (env n) := by
  have hboth : CountOk env ∧ PulseOk env ↔ ∀ n, ((transfer env n).due = true →
      (irq env (n + 1)).irqCycleReg.toNat = (transfer env (n + 1)).total) ∧
        ((transfer env n).due = true →
          (irq env n).reached (env n).adds = complete (transfer env n) (inputs env n)) := by
    rw [pulseOk_iff, CountOk, forall_and]
  rw [hboth]
  refine forall_iff_of_kept
    (P := fun n => (irq env n).fsm.InStep (transfer env n) ∧ Holds (irq env n) (transfer env n))
    ⟨DoneFsm.inStep_reset, nofun⟩
    (fun n ⟨hstep, hholds⟩ ha => ⟨hstep.step fsm_step (ha.agrees hstep hholds), hholds.clock hstep ha⟩) ?_
  intro n ⟨hstep, hholds⟩
  have hnext : (transfer env n).due = true → ((irq env (n + 1)).irqCycleReg.toNat = (transfer env (n + 1)).total ↔
      ((irq env n).irqCycleReg + (env n).adds).toNat = (transfer env n).total + (env n).bytes) := by
    intro hdue
    have hirq : (irq env (n + 1)).irqCycleReg = (irq env n).irqCycleReg + (env n).adds := count_clock hstep hdue
    have htotal : (transfer env (n + 1)).total = (transfer env n).total + (env n).bytes :=
      (DoneTransfer.clock_of_due hdue).2.2
    rw [hirq, htotal]
  constructor
  · intro ⟨hcount, _⟩ hdue
    exact adds_of_toNat hholds hdue ((hnext hdue).mp (hcount hdue))
  · intro ha
    exact ⟨fun hdue => (hnext hdue).mpr (ha.toNat_add hholds hdue), ha.agrees hstep hholds⟩

/-! ### Something else that is counted -/

/-- Since the start the counter holds what has been added. -/
def Counts (env : ℕ → TxIrqCycle) : ℕ → Prop :=
  DoneFsm.Counts complete (inputs env) (fun n => (irq env n).irqCycleReg.toNat) fun n => (env n).adds.toNat

lemma Counts.succ (h : Counts env n) (hstep : (irq env n).fsm.InStep (transfer env n)) : Counts env (n + 1) := by
  refine DoneFsm.Counts.succ h (fun ht => ?_) fun hdue x hx => ?_
  · have hzero : (irq env (n + 1)).irqCycleReg = 0 := count_of_taken hstep ht
    rw [hzero]
    rfl
  · have hadd : (irq env (n + 1)).irqCycleReg = (irq env n).irqCycleReg + (env n).adds := count_clock hstep hdue
    rw [hadd, BitVec.toNat_add, hx, Nat.mod_add_mod]

/-- The payload since a start reaches the length when the transfer is complete. -/
lemma first_complete {n₀ : ℕ} (ht : Taken complete (inputs env) n₀) :
    First (n₀ + 1) (Complete complete (inputs env)) n ↔ First (n₀ + 1)
      (fun n => (env n₀).txWrLength.toNat ≤ upTo (fun n => (env n).bytes) (n₀ + 1) (n + 1)) n := by
  refine (Arrival.first_iff_first.mpr fun n hle hnot => ?_) n |>.symm
  obtain ⟨-, hlength, htotal⟩ := DoneTransfer.at_work ht hle hnot
  rw [Complete, complete, decide_eq_true_iff, hlength, htotal, Arrival.upTo_succ hle]
  rfl

/-- The pulses are right exactly when, for each start, what is added reaches the length in the cycle in
which the payload does. -/
theorem pulseOk_iff_first : PulseOk env ↔ ∀ n₀, Taken complete (inputs env) n₀ → ∀ n,
    (First (n₀ + 1) (fun n =>
        (env n₀).txWrLength.toNat ≤ upTo (fun n => (env n).adds.toNat) (n₀ + 1) (n + 1) % 2 ^ 32) n ↔
      First (n₀ + 1)
        (fun n => (env n₀).txWrLength.toNat ≤ upTo (fun n => (env n).bytes) (n₀ + 1) (n + 1)) n) := by
  have hfirst : PulseOk env ↔ ∀ n₀, Taken complete (inputs env) n₀ → ∀ n,
      (First (n₀ + 1) (fun n =>
          (env n₀).txWrLength.toNat ≤ upTo (fun n => (env n).adds.toNat) (n₀ + 1) (n + 1) % 2 ^ 32) n ↔
        First (n₀ + 1) (Complete complete (inputs env)) n) := by
    refine (isRun env).pulses_iff_first (fun n hstep hcounts => Counts.succ hcounts hstep)
      fun n hstep hcounts n₀ ht hle hnot => ?_
    obtain ⟨hdue, hlength, -⟩ := DoneTransfer.at_work ht hle hnot
    have hreg : (irq env n).txWrLengthReg.toNat = (env n₀).txWrLength.toNat := (hstep.length hdue).trans hlength
    have hcount : (irq env n).irqCycleReg.toNat = upTo (fun n => (env n).adds.toNat) (n₀ + 1) n % 2 ^ 32 :=
      hcounts n₀ ht hle hnot
    rw [TxWrIrq.reached, decide_eq_true_iff, BitVec.le_def, BitVec.toNat_add, hcount, hreg, Nat.mod_add_mod,
      Arrival.upTo_succ hle]
  rw [hfirst]
  exact forall_congr' fun n₀ => forall_congr' fun ht => forall_congr' fun n => iff_congr Iff.rfl (first_complete ht)

end TxCount

/-! ### The beats of a straddled stream -/

namespace RqBeat
variable {b : RqBeat} {carry : ℕ}

lemma bytes_to_lane {n : ℕ} (hn : n < 16) :
    ((BitVec.ofNat 4 n).setWidth 32 + 1) <<< 2 = BitVec.ofNat 32 (4 * (n + 1)) := by
  apply BitVec.eq_of_toNat_eq
  simp [Nat.shiftLeft_eq]
  omega

lemma bytes_from_lane {k n : ℕ} (hk : k ≤ n) (hn : n < 16) :
    ((BitVec.ofNat 4 n).setWidth 32 - BitVec.ofNat 32 k) <<< 2 = BitVec.ofNat 32 (4 * (n - k)) := by
  apply BitVec.eq_of_toNat_eq
  simp [Nat.shiftLeft_eq]
  omega

lemma pins_of_ends {lower upper : Option ℕ} {otherSop : BitVec 2} {e₀ e₁ : BitVec 4} {carry : ℕ}
    {l : List ℕ} (h : ends ⟨lower, upper, otherSop, e₀, e₁⟩ carry = l) :
    pins ⟨lower, upper, otherSop, e₀, e₁⟩ carry =
      ⟨if lower.isSome && upper.isSome then 0b11
        else if lower.isSome || upper.isSome then 0b01 else 0b00,
      if lower.isSome then 0b00 else if upper.isSome then 0b10 else otherSop,
      match l.length with
      | 0 => 0b00
      | 1 => 0b01
      | _ => 0b11,
      (l[0]?.map (BitVec.ofNat 4)).getD e₀, (l[1]?.map (BitVec.ofNat 4)).getD e₁⟩ := by
  subst h
  rfl

/-- A fitting beat adds its payload, unless a TLP starts at byte 32 alone. -/
theorem rqAdds_pins (h : b.Fits carry) (ha : ¬b.Alone carry) :
    TxWrIrq.rqAdds (b.pins carry) = BitVec.ofNat 32 (4 * b.payload carry) := by
  obtain ⟨lower, upper, otherSop, e₀, e₁⟩ := b
  have hbusy := h.busy
  have hlower := h.lower_free
  have hupper := h.upper_free
  have hends := h.lower_ends
  cases lower with
  | none =>
    cases upper with
    | none =>
      have hpos : 0 < carry := by simpa [Nat.pos_iff_ne_zero] using hbusy
      by_cases h16 : carry ≤ 16
      · have hl : ends ⟨none, none, otherSop, e₀, e₁⟩ carry = [carry - 1] := by simp [ends, hpos, h16]
        have hpay : payload ⟨none, none, otherSop, e₀, e₁⟩ carry = carry - 1 + 1 := by
          simp only [payload, Option.elim_none]
          omega
        rw [pins_of_ends hl, hpay, ← bytes_to_lane (by omega)]
        rfl
      · have hl : ends ⟨none, none, otherSop, e₀, e₁⟩ carry = [] := by simp [ends, h16]
        have hpay : payload ⟨none, none, otherSop, e₀, e₁⟩ carry = 16 := by
          simp only [payload, Option.elim_none]
          omega
        rw [pins_of_ends hl, hpay]
        rfl
    | some p =>
      have hle : carry ≤ 8 := hupper rfl
      have hpos : 0 < carry := by
        by_contra h0
        exact ha ⟨by omega, rfl, rfl⟩
      by_cases hp : p ≤ 4
      · have hl : ends ⟨none, some p, otherSop, e₀, e₁⟩ carry = [carry - 1, p + 11] := by
          simp [ends, hpos, hp, show carry ≤ 16 by omega]
        have hpay : payload ⟨none, some p, otherSop, e₀, e₁⟩ carry =
            (carry - 1 + 1) + (p + 11 - 11) := by
          simp only [payload, Option.elim_none, Option.elim_some]
          omega
        rw [pins_of_ends hl, hpay, Nat.mul_add, BitVec.ofNat_add, ← bytes_to_lane (by omega),
          ← bytes_from_lane (by omega) (by omega)]
        rfl
      · have hl : ends ⟨none, some p, otherSop, e₀, e₁⟩ carry = [carry - 1] := by
          simp [ends, hpos, hp, show carry ≤ 16 by omega]
        have hpay : payload ⟨none, some p, otherSop, e₀, e₁⟩ carry = (carry - 1 + 1) + 4 := by
          simp only [payload, Option.elim_none, Option.elim_some]
          omega
        rw [pins_of_ends hl, hpay, Nat.mul_add, BitVec.ofNat_add, ← bytes_to_lane (by omega)]
        rfl
  | some p =>
    obtain rfl : carry = 0 := hlower rfl
    cases upper with
    | none =>
      by_cases hp : p ≤ 12
      · have hl : ends ⟨some p, none, otherSop, e₀, e₁⟩ 0 = [p + 3] := by simp [ends, hp]
        have hpay : payload ⟨some p, none, otherSop, e₀, e₁⟩ 0 = p + 3 - 3 := by
          simp only [payload, Option.elim_none, Option.elim_some]
          omega
        rw [pins_of_ends hl, hpay, ← bytes_from_lane (by omega) (by omega)]
        rfl
      · have hl : ends ⟨some p, none, otherSop, e₀, e₁⟩ 0 = [] := by simp [ends, hp]
        have hpay : payload ⟨some p, none, otherSop, e₀, e₁⟩ 0 = 12 := by
          simp only [payload, Option.elim_none, Option.elim_some]
          omega
        rw [pins_of_ends hl, hpay]
        rfl
    | some q =>
      have hp : p ≤ 4 := hends rfl p rfl
      by_cases hq : q ≤ 4
      · have hl : ends ⟨some p, some q, otherSop, e₀, e₁⟩ 0 = [p + 3, q + 11] := by
          simp [ends, hq, show p ≤ 12 by omega]
        have hpay : payload ⟨some p, some q, otherSop, e₀, e₁⟩ 0 =
            (p + 3 - 3) + (q + 11 - 11) := by
          simp only [payload, Option.elim_some]
          omega
        rw [pins_of_ends hl, hpay, Nat.mul_add, BitVec.ofNat_add, ← bytes_from_lane (by omega) (by omega),
          ← bytes_from_lane (by omega) (by omega)]
        rfl
      · have hl : ends ⟨some p, some q, otherSop, e₀, e₁⟩ 0 = [p + 3] := by
          simp [ends, hq, show p ≤ 12 by omega]
        have hpay : payload ⟨some p, some q, otherSop, e₀, e₁⟩ 0 = (p + 3 - 3) + 4 := by
          simp only [payload, Option.elim_some]
          omega
        rw [pins_of_ends hl, hpay, Nat.mul_add, BitVec.ofNat_add, ← bytes_from_lane (by omega) (by omega)]
        rfl

/-- A TLP that starts at byte 32 alone is miscounted. -/
theorem rqAdds_pins_alone (ha : b.Alone carry) :
    TxWrIrq.rqAdds (b.pins carry) ≠ BitVec.ofNat 32 (4 * b.payload carry) := by
  obtain ⟨lower, upper, otherSop, e₀, e₁⟩ := b
  obtain ⟨rfl, rfl, hupper⟩ := ha
  cases upper with
  | none => cases hupper
  | some p =>
    by_cases hp : p ≤ 4
    · have hl : ends ⟨none, some p, otherSop, e₀, e₁⟩ 0 = [p + 11] := by simp [ends, hp]
      have hpay : payload ⟨none, some p, otherSop, e₀, e₁⟩ 0 = p := by
        simp only [payload, Option.elim_none, Option.elim_some]
        omega
      have hadds : TxWrIrq.rqAdds (pins ⟨none, some p, otherSop, e₀, e₁⟩ 0) =
          BitVec.ofNat 32 (4 * (p + 11 + 1)) + BitVec.ofNat 32 16 := by
        rw [pins_of_ends hl, ← bytes_to_lane (by omega)]
        rfl
      rw [hadds, hpay]
      intro heq
      have hnat := congrArg BitVec.toNat heq
      simp only [BitVec.toNat_add, BitVec.toNat_ofNat] at hnat
      omega
    · have hl : ends ⟨none, some p, otherSop, e₀, e₁⟩ 0 = [] := by simp [ends, hp]
      have hpay : payload ⟨none, some p, otherSop, e₀, e₁⟩ 0 = 4 := by
        simp only [payload, Option.elim_none, Option.elim_some]
        omega
      have hadds : TxWrIrq.rqAdds (pins ⟨none, some p, otherSop, e₀, e₁⟩ 0) = 0 := by
        rw [pins_of_ends hl]
        rfl
      rw [hadds, hpay]
      decide

end RqBeat

/-- What the RQ interface and the register file do in one cycle. -/
structure RqCycle where
  beat : RqBeat
  tvalid : Bool
  tready : Bool
  txWrLength : BitVec 32
  txWrStart : Bool

def RqCycle.accepted (e : RqCycle) : Bool := e.tvalid && e.tready

namespace RqStream

variable (env : ℕ → RqCycle)

/-- The DWs of the open TLP that are still to come. -/
def carry : ℕ → ℕ
  | 0 => 0
  | n + 1 => if (env n).accepted then (env n).beat.next (carry n) else carry n

/-- The accepted beats continue the stream. -/
def FitsRun : Prop := ∀ n, (env n).accepted = true → (env n).beat.Fits (carry env n)

def cycle (n : ℕ) : TxIrqCycle where
  txWrStart := (env n).txWrStart
  txWrLength := (env n).txWrLength
  adds := if (env n).accepted then TxWrIrq.rqAdds ((env n).beat.pins (carry env n)) else 0
  bytes := if (env n).accepted then 4 * (env n).beat.payload (carry env n) else 0

open TxCount (transfer CountOk PulseOk)
open DoneTransfer (Taken Complete)

/-- Behind a start the counter holds the payload bytes and the interrupt is one pulse behind the last of
them, exactly when these stay below `2 ^ 32` and no TLP starts at byte 32 alone while a transfer is at
work. -/
theorem rq_count_iff (hfit : FitsRun env) :
    CountOk (cycle env) ∧ PulseOk (cycle env) ↔
      ∀ n, (transfer (cycle env) n).due = true →
        (transfer (cycle env) n).total + (cycle env n).bytes < 2 ^ 32 ∧
          ((env n).accepted = true → ¬(env n).beat.Alone (carry env n)) := by
  rw [TxCount.count_iff]
  refine forall_congr' fun n => imp_congr_right fun _ => ?_
  rw [and_comm]
  refine and_congr_right fun _ => ?_
  cases ha : (env n).accepted with
  | false => simp [cycle, ha]
  | true =>
    simp only [cycle, ha, if_true, true_imp_iff]
    constructor
    · intro hadds halone
      exact RqBeat.rqAdds_pins_alone halone hadds
    · exact RqBeat.rqAdds_pins (hfit n ha)

/-- A read and three writes of 80, 16 and 8 bytes, straddled, with a stall in between. -/
def mixed (n : ℕ) : RqCycle where
  beat :=
    match n with
    | 1 => ⟨some 0, some 20, 0, 0, 0⟩
    | 3 => ⟨none, none, 0, 0, 0⟩
    | _ => ⟨some 4, some 2, 0, 0, 0⟩
  tvalid := decide (1 ≤ n ∧ n ≤ 4)
  tready := n != 2
  txWrLength := 104
  txWrStart := n == 0

lemma accepted_mixed {n : ℕ} (h : (mixed n).accepted = true) : n = 1 ∨ n = 3 ∨ n = 4 := by
  obtain ⟨⟨h1, h4⟩, h2⟩ : (1 ≤ n ∧ n ≤ 4) ∧ n ≠ 2 := by simpa [RqCycle.accepted, mixed] using h
  omega

lemma fitsRun_mixed : FitsRun mixed := by
  intro n ha
  rcases accepted_mixed ha with rfl | rfl | rfl
  · exact ⟨.inr (.inl rfl), fun _ => rfl, fun _ => by decide, fun _ p hp => by cases hp; decide⟩
  · exact ⟨.inl (by decide), nofun, nofun, nofun⟩
  · exact ⟨.inr (.inl rfl), fun _ => rfl, fun _ => by decide, fun _ p hp => by cases hp; decide⟩

/-- The transfer of 104 bytes ends with the fourth beat. -/
theorem rq_count_iff_mixed : CountOk (cycle mixed) ∧ PulseOk (cycle mixed) := by
  refine (rq_count_iff mixed fitsRun_mixed).mpr fun n hdue => ?_
  have hlow : ∀ n, 5 ≤ n → (TxCount.inputs (cycle mixed) n).start = false := by
    intro n hn
    exact beq_false_of_ne (show n ≠ 0 by omega)
  have hn : n < 5 := by
    by_contra hge
    rw [transfer, DoneTransfer.not_due_of_low hlow (by decide) (by omega)] at hdue
    cases hdue
  interval_cases n <;> decide

/-- Every beat is a TLP with twelve DWs of payload. -/
def writes (length : BitVec 32) (n : ℕ) : RqCycle :=
  ⟨⟨some 12, none, 0, 0, 0⟩, true, true, length, n == 0⟩

lemma carry_writes (length : BitVec 32) (n : ℕ) : carry (writes length) n = 0 := by
  induction n with
  | zero => rfl
  | succ n ih => rw [carry, ih]; rfl

lemma fitsRun_writes (length : BitVec 32) : FitsRun (writes length) := by
  intro n _
  rw [carry_writes]
  exact ⟨.inr (.inl rfl), fun _ => rfl, nofun, nofun⟩

lemma bytes_writes (length : BitVec 32) (n : ℕ) : (cycle (writes length) n).bytes = 48 := by
  simp only [cycle, carry_writes]
  rfl

/-- A transfer of `2 ^ 32 - 1` bytes takes more payload than the counter can hold. -/
theorem counter_wraps : FitsRun (writes (BitVec.allOnes 32)) ∧
    ¬(CountOk (cycle (writes (BitVec.allOnes 32))) ∧ PulseOk (cycle (writes (BitVec.allOnes 32)))) := by
  refine ⟨fitsRun_writes _, fun hok => ?_⟩
  have hadds := TxCount.count_iff.mp hok
  have ht : Taken TxCount.complete (TxCount.inputs (cycle (writes (BitVec.allOnes 32)))) 0 := rfl
  have hat : ∀ n, Arrival.NotYet (0 + 1) (Complete TxCount.complete (TxCount.inputs (cycle (writes (BitVec.allOnes 32)))))
      (n + 1) → (transfer (cycle (writes (BitVec.allOnes 32))) (n + 1)).due = true ∧
        (transfer (cycle (writes (BitVec.allOnes 32))) (n + 1)).length = 2 ^ 32 - 1 ∧
          (transfer (cycle (writes (BitVec.allOnes 32))) (n + 1)).total = 48 * n := by
    intro n hnot
    obtain ⟨hdue, hlength, htotal⟩ := DoneTransfer.at_work ht (by omega) hnot
    refine ⟨hdue, hlength, htotal.trans ?_⟩
    simp [Arrival.upTo, TxCount.inputs, TxIrqCycle.inputs, bytes_writes, Nat.mul_comm]
  have hrun : ∀ n, 48 * n < 2 ^ 32 - 1 →
      Arrival.NotYet (0 + 1) (Complete TxCount.complete (TxCount.inputs (cycle (writes (BitVec.allOnes 32)))))
        (n + 1) := by
    intro n hn
    induction n with
    | zero => exact Arrival.notYet_self
    | succ n ih =>
      have hold := ih (by omega)
      obtain ⟨-, hlength, htotal⟩ := hat n hold
      refine (Arrival.notYet_succ (by omega)).mpr ⟨hold, fun hc => ?_⟩
      have hle : (transfer (cycle (writes (BitVec.allOnes 32))) (n + 1)).length ≤
          (transfer (cycle (writes (BitVec.allOnes 32))) (n + 1)).total +
            (cycle (writes (BitVec.allOnes 32)) (n + 1)).bytes := of_decide_eq_true hc
      rw [hlength, htotal, bytes_writes] at hle
      omega
  obtain ⟨hdue, -, htotal⟩ := hat 89478485 (hrun 89478485 (by decide))
  have hlt := (hadds _ hdue).2
  rw [htotal, bytes_writes] at hlt
  exact absurd hlt (by decide)

end RqStream

end FpgaPcie
