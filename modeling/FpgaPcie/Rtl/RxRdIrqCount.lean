import FpgaPcie.Rtl.DoneCounter
import FpgaPcie.Rtl.RxRdIrq

/-!
# What the H2C done counter counts

`dma_rx_rd_irq` next to the transfers that its inputs ask for: on a 512-bit bus it adds up the DW counts of
the completions, cut to ten bits behind the shift to bytes.
-/

namespace FpgaPcie

/-- One cycle of the counter: its inputs, what its branch adds, and the bytes that count. -/
structure RxIrqCycle where
  txRdStart : Bool
  txRdLength : ℕ
  adds : Option ℕ
  bytes : ℕ

def RxIrqCycle.inputs (e : RxIrqCycle) : DoneCycle := ⟨e.txRdStart, e.txRdLength, e.bytes⟩

/-- What it shares with the other counter. -/
def RxRdIrq.fsm (s : RxRdIrq) : DoneFsm :=
  ⟨decide (s.rdStateReg = .start), s.txRdLengthReg, s.txRdStartReg, s.txRdIrqReg⟩

namespace RxCount

open Arrival (First NotYet upTo)
open DoneTransfer (Taken Complete)

/-- The bytes up to this cycle have reached the length. -/
def complete (t : DoneTransfer) (_ : DoneCycle) : Bool := decide (t.length ≤ t.total) && decide (0 < t.total)

variable (env : ℕ → RxIrqCycle)

/-- The counter. -/
def irq : ℕ → RxRdIrq
  | 0 => .reset
  | n + 1 => (irq n).clock (env n).txRdStart (env n).txRdLength (env n).adds

def inputs (n : ℕ) : DoneCycle := (env n).inputs

/-- The transfer that the inputs ask for. -/
def transfer (n : ℕ) : DoneTransfer := .run complete (inputs env) n

/-- Every start sets the counter to work. -/
def StartOk : Prop :=
  ∀ n, (transfer env n).starts (inputs env n) = true → (irq env (n + 1)).rdStateReg = .start

/-- The interrupt is high in the cycle behind the one that finds the length reached. -/
def PulseOk : Prop := ∀ n, (irq env (n + 1)).txRdIrqReg = (transfer env (n + 1)).done

/-- While a transfer is at work, the counter holds its bytes. -/
def Holds (s : RxRdIrq) (t : DoneTransfer) : Prop := t.due = true → s.cycleReg = t.total

variable {env} {s : RxRdIrq} {t : DoneTransfer} {e : RxIrqCycle} {n : ℕ}

lemma fsm_step : s.fsm.Step e.inputs s.reached (s.clock e.txRdStart e.txRdLength e.adds).fsm := by
  cases hs : s.rdStateReg with
  | idle =>
    refine ⟨?_, fun _ => ?_, ?_, ?_⟩
    · simp [RxRdIrq.fsm, RxRdIrq.clock, RxIrqCycle.inputs, hs]
    · simp [RxRdIrq.fsm, RxRdIrq.clock, RxIrqCycle.inputs, hs]
    · simp [RxRdIrq.fsm, RxRdIrq.clock, RxIrqCycle.inputs, hs]
    · cases hi : s.txRdIrqReg <;> simp [RxRdIrq.fsm, RxRdIrq.clock, RxRdIrq.txRdIrqNext, hs, hi]
  | start =>
    refine ⟨?_, fun _ => ?_, ?_, ?_⟩
    · cases hr : s.reached <;> simp [RxRdIrq.fsm, RxRdIrq.clock, hs, hr]
    · simp [RxRdIrq.fsm, RxRdIrq.clock, hs]
    · simp [RxRdIrq.fsm, RxRdIrq.clock, hs]
    · cases hi : s.txRdIrqReg <;> simp [RxRdIrq.fsm, RxRdIrq.clock, RxRdIrq.txRdIrqNext, hs, hi]

lemma isRun (env : ℕ → RxIrqCycle) :
    DoneFsm.IsRun (inputs env) (fun n => (irq env n).reached) fun n => (irq env n).fsm :=
  ⟨rfl, fun _ => fsm_step⟩

lemma start_of_due (h : s.fsm.InStep t) (hdue : t.due = true) : s.rdStateReg = .start :=
  of_decide_eq_true (h.work.trans hdue)

lemma count_clock (h : s.fsm.InStep t) (hdue : t.due = true) :
    (s.clock e.txRdStart e.txRdLength e.adds).cycleReg =
      e.adds.elim s.cycleReg fun a => (s.cycleReg + a) % 2 ^ 32 := by
  simp [RxRdIrq.clock, start_of_due h hdue]

lemma count_of_taken (h : s.fsm.InStep t) (ht : t.taken e.inputs = true) :
    (s.clock e.txRdStart e.txRdLength e.adds).cycleReg = 0 := by
  cases hs : s.rdStateReg with
  | idle => simp [RxRdIrq.clock, hs]
  | start =>
    have hdue : t.due = true := h.work.symm.trans (decide_eq_true hs)
    rw [DoneTransfer.taken_of_due hdue] at ht
    cases ht

/-- The pulses are right exactly when the counter agrees with the bytes in every cycle. -/
theorem pulseOk_iff : PulseOk env ↔ ∀ n, (transfer env n).due = true →
    (irq env n).reached = complete (transfer env n) (inputs env n) :=
  (isRun env).pulses_iff

/-- With the right pulses, the starts that are lost are those in the cycle of an interrupt. -/
theorem startOk_iff (h : PulseOk env) : StartOk env ↔
    ∀ n, (transfer env n).done = true → (transfer env n).rises (inputs env n) = false := by
  have hwork : StartOk env ↔
      ∀ n, (transfer env n).starts (inputs env n) = true → (irq env (n + 1)).fsm.work = true :=
    forall_congr' fun _ => imp_congr_right fun _ => decide_eq_true_iff.symm
  rw [hwork]
  exact (isRun env).starts_iff h

lemma Holds.agrees (h : Holds s t) (hstep : s.fsm.InStep t) (hdue : t.due = true) :
    s.reached = complete t e.inputs := by
  have hlength : s.txRdLengthReg = t.length := hstep.length hdue
  rw [RxRdIrq.reached, complete, h hdue, hlength]

/-! ### Something else that is counted -/

/-- Since the start the counter holds what has been added. -/
def Counts (env : ℕ → RxIrqCycle) : ℕ → Prop :=
  DoneFsm.Counts complete (inputs env) (fun n => (irq env n).cycleReg) fun n => (env n).adds.getD 0

lemma Counts.succ (h : Counts env n) (hstep : (irq env n).fsm.InStep (transfer env n)) : Counts env (n + 1) := by
  refine DoneFsm.Counts.succ h (fun ht => count_of_taken hstep ht) fun hdue x hx => ?_
  have hadd : (irq env (n + 1)).cycleReg = (env n).adds.elim (irq env n).cycleReg
      fun a => ((irq env n).cycleReg + a) % 2 ^ 32 := count_clock hstep hdue
  rw [hadd, hx]
  cases (env n).adds <;> simp

/-- The bytes since a start have reached the length when the transfer is complete. -/
lemma first_complete {n₀ : ℕ} (ht : Taken complete (inputs env) n₀) :
    First (n₀ + 1) (Complete complete (inputs env)) n ↔ First (n₀ + 1)
      (fun n => max 1 (env n₀).txRdLength ≤ upTo (fun n => (env n).bytes) (n₀ + 1) n) n := by
  refine (Arrival.first_iff_first.mpr fun n hle hnot => ?_) n |>.symm
  obtain ⟨-, hlength, htotal⟩ := DoneTransfer.at_work ht hle hnot
  rw [Complete, complete, Bool.and_eq_true, decide_eq_true_iff, decide_eq_true_iff, hlength, htotal, max_le_iff,
    and_comm]
  rfl

/-- The pulses are right exactly when, for each start, what is added reaches the length in the cycle in
which the bytes do. A length of zero counts as one. -/
theorem pulseOk_iff_first : PulseOk env ↔ ∀ n₀, Taken complete (inputs env) n₀ → ∀ n,
    (First (n₀ + 1)
        (fun n => max 1 (env n₀).txRdLength ≤ upTo (fun n => (env n).adds.getD 0) (n₀ + 1) n % 2 ^ 32) n ↔
      First (n₀ + 1) (fun n => max 1 (env n₀).txRdLength ≤ upTo (fun n => (env n).bytes) (n₀ + 1) n) n) := by
  have hfirst : PulseOk env ↔ ∀ n₀, Taken complete (inputs env) n₀ → ∀ n,
      (First (n₀ + 1)
          (fun n => max 1 (env n₀).txRdLength ≤ upTo (fun n => (env n).adds.getD 0) (n₀ + 1) n % 2 ^ 32) n ↔
        First (n₀ + 1) (Complete complete (inputs env)) n) := by
    refine (isRun env).pulses_iff_first (fun n hstep hcounts => Counts.succ hcounts hstep)
      fun n hstep hcounts n₀ ht hle hnot => ?_
    obtain ⟨hdue, hlength, -⟩ := DoneTransfer.at_work ht hle hnot
    have hreg : (irq env n).txRdLengthReg = (env n₀).txRdLength := (hstep.length hdue).trans hlength
    have hcount : (irq env n).cycleReg = upTo (fun n => (env n).adds.getD 0) (n₀ + 1) n % 2 ^ 32 :=
      hcounts n₀ ht hle hnot
    rw [RxRdIrq.reached, Bool.and_eq_true, decide_eq_true_iff, decide_eq_true_iff, hreg, hcount, max_le_iff,
      and_comm]
    rfl
  rw [hfirst]
  exact forall_congr' fun n₀ => forall_congr' fun ht => forall_congr' fun n => iff_congr Iff.rfl (first_complete ht)

end RxCount

/-! ### Completions on a 512-bit bus -/

/-- The DWs of the completions that start in a beat. -/
def RcBeat.dwords (b : RcBeat) : ℕ := (b.starts.map fun s => s.2.dwordCount).sum

lemma announced_sum_le (starts : List (Fin 4 × RcCpl)) :
    (starts.map fun s => 4 * s.2.dwordCount % 1024).sum ≤ 4 * (starts.map fun s => s.2.dwordCount).sum := by
  rw [← List.sum_map_mul_left]
  exact List.sum_le_sum fun s _ => Nat.mod_le _ _

lemma announced_eq_iff (b : RcBeat) :
    b.announced = 4 * b.dwords ↔ ∀ s ∈ b.starts, s.2.dwordCount < 256 := by
  rw [RcBeat.announced, RcBeat.dwords]
  induction b.starts with
  | nil => simp
  | cons s rest ih =>
    have hle := announced_sum_le rest
    have hmod := Nat.mod_le (4 * s.2.dwordCount) 1024
    rw [List.forall_mem_cons, ← ih, List.map_cons, List.map_cons, List.sum_cons, List.sum_cons]
    omega

namespace RcCount

variable (env : ℕ → RcCycle)

def cycle (n : ℕ) : RxIrqCycle where
  txRdStart := (env n).txRdStart
  txRdLength := (env n).txRdLength
  adds := (env n).rcAdds
  bytes := if (env n).accepted then 4 * (env n).beat.dwords else 0

open RxCount (irq transfer inputs StartOk PulseOk Holds)

/-- At each accepted beat of a transfer `cycle_reg` increases by the bytes of the completions that start
in it. -/
def CountOk : Prop :=
  ∀ n, (transfer (cycle env) n).due = true → (env n).accepted = true →
    (irq (cycle env) (n + 1)).cycleReg = (irq (cycle env) n).cycleReg + 4 * (env n).beat.dwords

/-- Counter and interrupt are right exactly when, while a transfer is at work, every completion has less than
256 DWs and the bytes stay below `2 ^ 32`. -/
lemma count_pulse_iff : CountOk env ∧ PulseOk (cycle env) ↔
    ∀ n, (transfer (cycle env) n).due = true → (env n).accepted = true →
      (∀ s ∈ (env n).beat.starts, s.2.dwordCount < 256) ∧
        (transfer (cycle env) n).total + 4 * (env n).beat.dwords < 2 ^ 32 := by
  have hcycle : ∀ n, (irq (cycle env) n).fsm.InStep (transfer (cycle env) n) → (transfer (cycle env) n).due = true →
      (irq (cycle env) (n + 1)).cycleReg = if (env n).accepted = true then
        ((irq (cycle env) n).cycleReg + (env n).beat.announced) % 2 ^ 32
      else (irq (cycle env) n).cycleReg := by
    intro n h hdue
    have hclock : (irq (cycle env) (n + 1)).cycleReg = (env n).rcAdds.elim (irq (cycle env) n).cycleReg
        fun a => ((irq (cycle env) n).cycleReg + a) % 2 ^ 32 := RxCount.count_clock h hdue
    rw [hclock, RcIrq.rcAdds_eq]
    cases (env n).accepted <;> rfl
  have htotal : ∀ n, (transfer (cycle env) n).due = true → (transfer (cycle env) (n + 1)).total =
      (transfer (cycle env) n).total + (cycle env n).bytes := fun n hdue =>
    (DoneTransfer.clock_of_due hdue).2.2
  have hnext : ∀ n, (irq (cycle env) n).fsm.InStep (transfer (cycle env) n) →
      Holds (irq (cycle env) n) (transfer (cycle env) n) →
      ((transfer (cycle env) n).due = true → (env n).accepted = true →
        (∀ s ∈ (env n).beat.starts, s.2.dwordCount < 256) ∧
          (transfer (cycle env) n).total + 4 * (env n).beat.dwords < 2 ^ 32) →
      (transfer (cycle env) n).due = true → (irq (cycle env) (n + 1)).cycleReg =
        (transfer (cycle env) n).total + (cycle env n).bytes := by
    intro n hstep hholds hcond hdue
    rw [hcycle n hstep hdue, hholds hdue]
    cases ha : (env n).accepted with
    | false => simp [cycle, ha]
    | true =>
      obtain ⟨hsmall, hlt⟩ := hcond hdue ha
      rw [if_pos rfl, (announced_eq_iff _).mpr hsmall, Nat.mod_eq_of_lt hlt]
      simp [cycle, ha]
  have hboth : CountOk env ∧ PulseOk (cycle env) ↔
      ∀ n, ((transfer (cycle env) n).due = true → (env n).accepted = true →
        (irq (cycle env) (n + 1)).cycleReg = (irq (cycle env) n).cycleReg + 4 * (env n).beat.dwords) ∧
          ((transfer (cycle env) n).due = true → (irq (cycle env) n).reached =
            RxCount.complete (transfer (cycle env) n) (inputs (cycle env) n)) := by
    rw [RxCount.pulseOk_iff, CountOk, forall_and]
  rw [hboth]
  refine forall_iff_of_kept
    (P := fun n => (irq (cycle env) n).fsm.InStep (transfer (cycle env) n) ∧
      Holds (irq (cycle env) n) (transfer (cycle env) n)) ⟨DoneFsm.inStep_reset, nofun⟩
    (fun n ⟨hstep, hholds⟩ hcond => ⟨hstep.step RxCount.fsm_step (hholds.agrees hstep), fun hdue => ?_⟩) ?_
  · rcases DoneTransfer.taken_or_due hdue with ht | hdue
    · exact (RxCount.count_of_taken hstep ht).trans (DoneTransfer.clock_of_taken ht).2.2.symm
    · exact (hnext n hstep hholds hcond hdue).trans (htotal n hdue).symm
  · intro n ⟨hstep, hholds⟩
    constructor
    · intro ⟨hcount, _⟩ hdue ha
      have hn := hcycle n hstep hdue
      have hle := announced_sum_le (env n).beat.starts
      rw [if_pos ha, hcount hdue ha, hholds hdue] at hn
      have hmod := Nat.mod_le ((transfer (cycle env) n).total + (env n).beat.announced) (2 ^ 32)
      have hlt := Nat.mod_lt ((transfer (cycle env) n).total + (env n).beat.announced) (Nat.two_pow_pos 32)
      rw [← RcBeat.announced, ← RcBeat.dwords] at hle
      exact ⟨(announced_eq_iff _).mp (by omega), by omega⟩
    · intro hcond
      refine ⟨fun hdue ha => ?_, hholds.agrees hstep⟩
      rw [hnext n hstep hholds hcond hdue, hholds hdue]
      simp [cycle, ha]

/-- Every start is taken, and the counter and the interrupt are right, exactly when no start comes in the
cycle of an interrupt and, while a transfer is at work, every completion has less than 256 DWs and the bytes
stay below `2 ^ 32`. -/
theorem rc_count_iff : StartOk (cycle env) ∧ CountOk env ∧ PulseOk (cycle env) ↔
    (∀ n, (transfer (cycle env) n).done = true →
      (transfer (cycle env) n).rises (inputs (cycle env) n) = false) ∧
    ∀ n, (transfer (cycle env) n).due = true → (env n).accepted = true →
      (∀ s ∈ (env n).beat.starts, s.2.dwordCount < 256) ∧
        (transfer (cycle env) n).total + 4 * (env n).beat.dwords < 2 ^ 32 := by
  rw [← count_pulse_iff]
  exact and_congr_left fun h => RxCount.startOk_iff h.2

/-- Three completions that share beats, with one of the other engine in the cycle of the interrupt. -/
theorem rc_count_iff_straddled : StartOk (cycle RcIrq.straddledCycle) ∧ CountOk RcIrq.straddledCycle ∧
    PulseOk (cycle RcIrq.straddledCycle) := by
  have hlow : ∀ n, 4 ≤ n → (inputs (cycle RcIrq.straddledCycle) n).start = false := by
    intro n hn
    exact beq_false_of_ne (show n ≠ 0 by omega)
  refine (rc_count_iff _).mpr ⟨fun n _ => ?_, fun n hdue _ => ?_⟩
  · rcases n.eq_zero_or_pos with rfl | hpos
    · contradiction
    · have hstart : (inputs (cycle RcIrq.straddledCycle) n).start = false :=
        beq_false_of_ne (show n ≠ 0 by omega)
      rw [DoneTransfer.rises, hstart]
      rfl
  · have hn : n < 4 := by
      by_contra hge
      rw [transfer, DoneTransfer.not_due_of_low hlow (by decide) (by omega)] at hdue
      cases hdue
    interval_cases n <;> decide

/-- A transfer of 1024 bytes that one completion answers. -/
def largeCpl (n : ℕ) : RcCycle where
  beat :=
    { starts := if n = 1 then [(0, ⟨.h2cData, 256, 1024⟩)] else []
      other := fun _ => 0
      ordered := by split_ifs <;> simp }
  tvalid := decide (1 ≤ n ∧ n ≤ 17)
  tready := true
  txRdLength := 1024
  txRdStart := n == 0

/-- Its 1024 bytes are cut to none. -/
theorem large_cpl_lost : ¬(StartOk (cycle largeCpl) ∧ CountOk largeCpl ∧ PulseOk (cycle largeCpl)) := by
  intro ⟨_, h, _⟩
  exact absurd (h 1 (by decide) (by decide)) (by decide)

/-- The start of a transfer of 256 bytes comes again in the cycle of its interrupt. -/
def startAgain (n : ℕ) : RcCycle where
  beat :=
    { starts := if n = 1 then [(0, ⟨.h2cData, 64, 256⟩)] else []
      other := fun _ => 0
      ordered := by split_ifs <;> simp }
  tvalid := decide (1 ≤ n)
  tready := true
  txRdLength := 256
  txRdStart := n == 0 || n == 3

/-- It is lost, although all that is counted is right. -/
example : (irq (cycle startAgain) 3).txRdIrqReg = true ∧
    (transfer (cycle startAgain) 3).starts (inputs (cycle startAgain) 3) = true ∧
      (irq (cycle startAgain) 4).rdStateReg = .idle := by decide

end RcCount

end FpgaPcie
