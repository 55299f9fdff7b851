import FpgaPcie.Lib.Arrival
import FpgaPcie.Lib.Transition

/-!
# Transfers of a done counter

What the inputs of `dma_tx_wr_irq` and `dma_rx_rd_irq` ask for, without their registers: a transfer starts
when the start input rises, it is at work until its bytes have reached the length, and its interrupt is due
in the cycle behind. The last part is about the registers that the two modules share: they follow the
transfers as long as the length is found to be reached when it is.
-/

namespace FpgaPcie

/-- The start and the length from the register file, and the bytes that count in this cycle. -/
structure DoneCycle where
  start : Bool
  length : ℕ
  bytes : ℕ

/-- The transfer that is at work, if one is `due`, with its length and the bytes since its start. `done`
says that a transfer was complete in the last cycle, and `lastStart` is the start input of that cycle. -/
structure DoneTransfer where
  lastStart : Bool
  due : Bool
  done : Bool
  length : ℕ
  total : ℕ

namespace DoneTransfer

open Arrival (NotYet First upTo)

-- `complete` says when the bytes have reached the length
variable (complete : DoneTransfer → DoneCycle → Bool) (t : DoneTransfer) (e : DoneCycle)

def reset : DoneTransfer := ⟨false, false, false, 0, 0⟩

/-- The start input rises. -/
def rises : Bool := e.start && !t.lastStart

/-- It rises while no transfer is at work. -/
def starts : Bool := t.rises e && !t.due

/-- A start is taken, unless it comes in the cycle of an interrupt. -/
def taken : Bool := t.starts e && !t.done

def clock : DoneTransfer where
  lastStart := e.start
  due := t.taken e || (t.due && !complete t e)
  done := t.due && complete t e
  length := if t.taken e then e.length else t.length
  total := if t.taken e then 0 else if t.due then t.total + e.bytes else t.total

def run (env : ℕ → DoneCycle) : ℕ → DoneTransfer
  | 0 => .reset
  | n + 1 => (run env n).clock complete (env n)

variable {complete t e}

lemma taken_of_due (h : t.due = true) : t.taken e = false := by simp [taken, starts, h]

/-- An interrupt ends the transfer. -/
lemma done_clock (h : (t.clock complete e).due = true) : (t.clock complete e).done = false := by
  cases hdue : t.due <;> cases hc : complete t e <;> simp_all [clock, taken, starts]

lemma taken_or_due (h : (t.clock complete e).due = true) : t.taken e = true ∨ t.due = true := by
  cases ht : t.taken e with
  | true => exact .inl rfl
  | false =>
    simp only [clock, ht, Bool.false_or, Bool.and_eq_true] at h
    exact .inr h.1

lemma clock_of_taken (h : t.taken e = true) : (t.clock complete e).due = true ∧
    (t.clock complete e).length = e.length ∧ (t.clock complete e).total = 0 := by
  simp [clock, h]

lemma clock_of_due (h : t.due = true) : (t.clock complete e).due = !complete t e ∧
    (t.clock complete e).length = t.length ∧ (t.clock complete e).total = t.total + e.bytes := by
  simp [clock, taken_of_due, h]

/-! ### One transfer of a run -/

variable (complete) (env : ℕ → DoneCycle)

/-- A start is taken in cycle `n`. -/
def Taken (n : ℕ) : Prop := (run complete env n).taken (env n) = true

/-- The bytes of the transfer at work have reached its length in cycle `n`. -/
def Complete (n : ℕ) : Prop := complete (run complete env n) (env n) = true

variable {complete env} {n₀ n : ℕ}

/-- A transfer is at work until it is complete, and its bytes are those since its start. -/
theorem at_work (ht : Taken complete env n₀) (hlt : n₀ + 1 ≤ n) (hnot : NotYet (n₀ + 1) (Complete complete env) n) :
    (run complete env n).due = true ∧ (run complete env n).length = (env n₀).length ∧
      (run complete env n).total = upTo (fun n => (env n).bytes) (n₀ + 1) n := by
  induction n, hlt using Nat.le_induction with
  | base =>
    rw [Arrival.upTo_self]
    exact clock_of_taken ht
  | succ n hn ih =>
    obtain ⟨hold, hnow⟩ := (Arrival.notYet_succ hn).mp hnot
    obtain ⟨hdue, hlength, htotal⟩ := ih hold
    have hc : complete (run complete env n) (env n) = false := by simpa [Complete] using hnow
    have hnext : (run complete env (n + 1)).due = !complete (run complete env n) (env n) ∧
        (run complete env (n + 1)).length = (run complete env n).length ∧
          (run complete env (n + 1)).total = (run complete env n).total + (env n).bytes := clock_of_due hdue
    rw [hnext.1, hnext.2.1, hnext.2.2, hc, hlength, htotal, Arrival.upTo_succ hn]
    exact ⟨rfl, rfl, rfl⟩

/-- A transfer at work has been started, and not been complete since. -/
theorem exists_start (hdue : (run complete env n).due = true) :
    ∃ n₀, Taken complete env n₀ ∧ n₀ + 1 ≤ n ∧ NotYet (n₀ + 1) (Complete complete env) n := by
  induction n with
  | zero => cases hdue
  | succ n ih =>
    rcases taken_or_due hdue with ht | hdue'
    · exact ⟨n, ht, le_rfl, Arrival.notYet_self⟩
    · obtain ⟨n₀, ht, hle, hnot⟩ := ih hdue'
      refine ⟨n₀, ht, by omega, (Arrival.notYet_succ hle).mpr ⟨hnot, fun hc => ?_⟩⟩
      rw [run, (clock_of_due hdue').1, hc] at hdue
      cases hdue

/-- Without another start no further transfer is at work. -/
lemma not_due_of_low {k : ℕ} (hlow : ∀ n, k ≤ n → (env n).start = false) (hdue : (run complete env k).due = false)
    (hn : k ≤ n) : (run complete env n).due = false := by
  induction n, hn using Nat.le_induction with
  | base => exact hdue
  | succ n hn ih =>
    by_contra hno
    rcases taken_or_due (by simpa [run] using hno) with ht | hdue'
    · simp [taken, starts, rises, hlow n hn] at ht
    · rw [ih] at hdue'
      cases hdue'

lemma Taken.start (h : Taken complete env n) : (env n).start = true := by
  by_contra hlow
  simp [Taken, taken, starts, rises, hlow] at h

/-- A test agrees with the transfer at work in all cycles exactly when, for each start, it holds first in
the cycle in which the transfer is complete. -/
theorem agrees_iff {R : ℕ → ℕ → Prop} : (∀ n₀ n, Taken complete env n₀ → n₀ + 1 ≤ n →
      NotYet (n₀ + 1) (Complete complete env) n → (R n₀ n ↔ Complete complete env n)) ↔
    ∀ n₀, Taken complete env n₀ →
      ∀ n, First (n₀ + 1) (R n₀) n ↔ First (n₀ + 1) (Complete complete env) n := by
  constructor
  · intro h n₀ ht
    exact Arrival.first_iff_first.mpr fun n => h n₀ n ht
  · intro h n₀ n ht
    exact Arrival.first_iff_first.mp (h n₀ ht) n

end DoneTransfer

/-- The registers that the two counters share. `work` is their state `START`. -/
structure DoneFsm where
  work : Bool
  length : ℕ
  startReg : Bool
  irqReg : Bool

namespace DoneFsm

open Arrival (First NotYet upTo)
open DoneTransfer (Taken Complete run)

def reset : DoneFsm := ⟨false, 0, false, false⟩

/-- One cycle of them. `reached` is what the counter finds about the length. -/
structure Step (s : DoneFsm) (e : DoneCycle) (reached : Bool) (s' : DoneFsm) : Prop where
  work : s'.work = if s.work then !reached else e.start && !s.startReg
  length : s'.work = true → s'.length = if s.work then s.length else e.length
  startReg : s'.startReg = if s.work then s.startReg else e.start
  irqReg : s'.irqReg = (!s.irqReg && (s.work && reached))

/-- The counter is at work exactly while a transfer is. -/
structure InStep (s : DoneFsm) (t : DoneTransfer) : Prop where
  work : s.work = t.due
  length : t.due = true → s.length = t.length
  irqReg : s.irqReg = t.done
  startReg : s.startReg = (t.due || t.done || t.lastStart)
  apart : t.due = true → t.done = false

/-- The registers `fsm` of a run, and what the counter finds in its cycles. -/
structure IsRun (env : ℕ → DoneCycle) (reached : ℕ → Bool) (fsm : ℕ → DoneFsm) : Prop where
  init : fsm 0 = .reset
  step : ∀ n, (fsm n).Step (env n) (reached n) (fsm (n + 1))

variable {complete : DoneTransfer → DoneCycle → Bool} {s s' : DoneFsm} {t : DoneTransfer} {e : DoneCycle}
  {reached : Bool}

lemma inStep_reset : InStep .reset .reset := ⟨rfl, nofun, rfl, rfl, nofun⟩

/-- The interrupt is right when what the counter finds is. -/
lemma InStep.irq_step (h : InStep s t) (hs : s.Step e reached s') : s'.irqReg = (t.clock complete e).done ↔
    (t.due = true → reached = complete t e) := by
  rw [hs.irqReg, h.work, h.irqReg]
  cases hdue : t.due with
  | true => simp [DoneTransfer.clock, hdue, h.apart hdue]
  | false => simp [DoneTransfer.clock, hdue]

/-- A start is taken unless the interrupt is high. -/
lemma InStep.start_step (h : InStep s t) (hs : s.Step e reached s') (hst : t.starts e = true) :
    s'.work = true ↔ t.done = false := by
  obtain ⟨⟨hstart, hlast⟩, hdue⟩ : (e.start = true ∧ t.lastStart = false) ∧ t.due = false := by
    simpa [DoneTransfer.starts, DoneTransfer.rises] using hst
  simp [hs.work, h.work, h.startReg, hstart, hlast, hdue]

lemma InStep.step (h : InStep s t) (hs : s.Step e reached s') (ha : t.due = true → reached = complete t e) :
    InStep s' (t.clock complete e) := by
  have hirq := (h.irq_step hs).mpr ha
  cases hdue : t.due with
  | true =>
    have hnext : (t.clock complete e).due = !complete t e := (DoneTransfer.clock_of_due hdue).1
    have hlength : (t.clock complete e).length = t.length := (DoneTransfer.clock_of_due hdue).2.1
    have hdone : (t.clock complete e).done = complete t e := by simp [DoneTransfer.clock, hdue]
    have hwork : s'.work = (t.clock complete e).due := by simp [hs.work, h.work, hdue, hnext, ha hdue]
    refine ⟨hwork, fun hd => ?_, hirq, ?_, DoneTransfer.done_clock⟩
    · rw [hs.length (hwork.trans hd), h.work, hdue, if_pos rfl, hlength, h.length hdue]
    · rw [hs.startReg, h.work, h.startReg, hnext, hdone, hdue]
      simp
  | false =>
    have hwork : s'.work = (t.clock complete e).due := by
      rw [hs.work, h.work, h.startReg, hdue]
      cases hdone : t.done <;> cases hlast : t.lastStart <;>
        simp [DoneTransfer.clock, DoneTransfer.taken, DoneTransfer.starts, DoneTransfer.rises, hdue, hdone, hlast]
    refine ⟨hwork, fun hd => ?_, hirq, ?_, DoneTransfer.done_clock⟩
    · have ht : t.taken e = true := (DoneTransfer.taken_or_due hd).resolve_right (by simp [hdue])
      rw [hs.length (hwork.trans hd), h.work, hdue, if_neg Bool.false_ne_true, (DoneTransfer.clock_of_taken ht).2.1]
    · rw [hs.startReg, h.work, hdue]
      cases hstart : e.start <;>
        simp [DoneTransfer.clock, DoneTransfer.taken, DoneTransfer.starts, DoneTransfer.rises, hdue, hstart]

/-! ### Runs -/

namespace IsRun

variable {env : ℕ → DoneCycle} {found : ℕ → Bool} {fsm : ℕ → DoneFsm} {n : ℕ}

lemma inStep_zero (h : IsRun env found fsm) : InStep (fsm 0) (run complete env 0) := by
  rw [h.init]
  exact inStep_reset

/-- The pulses are right exactly when in every cycle what the counter finds is. -/
theorem pulses_iff (h : IsRun env found fsm) : (∀ n, (fsm (n + 1)).irqReg = (run complete env (n + 1)).done) ↔
    ∀ n, (run complete env n).due = true → found n = complete (run complete env n) (env n) :=
  forall_iff_of_kept (P := fun n => InStep (fsm n) (run complete env n)) h.inStep_zero
    (fun n hs => hs.step (h.step n)) fun n hs => hs.irq_step (h.step n)

lemma inStep (h : IsRun env found fsm) (hirq : ∀ n, (fsm (n + 1)).irqReg = (run complete env (n + 1)).done) :
    ∀ n, InStep (fsm n) (run complete env n) :=
  forall_of_kept (P := fun n => InStep (fsm n) (run complete env n)) h.inStep_zero
    (fun n hs => hs.step (h.step n)) (h.pulses_iff.mp hirq)

/-- With the right pulses, the starts that are lost are those in the cycle of an interrupt. -/
theorem starts_iff (h : IsRun env found fsm) (hirq : ∀ n, (fsm (n + 1)).irqReg = (run complete env (n + 1)).done) :
    (∀ n, (run complete env n).starts (env n) = true → (fsm (n + 1)).work = true) ↔
      ∀ n, (run complete env n).done = true → (run complete env n).rises (env n) = false := by
  have hstep := h.inStep hirq
  constructor
  · intro hok n hdone
    by_contra hrises
    have hdue : (run complete env n).due = false := by
      by_contra hno
      have hapart := (hstep n).apart (by simpa using hno)
      rw [hdone] at hapart
      cases hapart
    have hst : (run complete env n).starts (env n) = true := by
      simpa [DoneTransfer.starts, hdue] using hrises
    have hlow := ((hstep n).start_step (h.step n) hst).mp (hok n hst)
    rw [hdone] at hlow
    cases hlow
  · intro hno n hst
    refine ((hstep n).start_step (h.step n) hst).mpr ?_
    by_contra hdone
    have hrises := hno n (by simpa using hdone)
    simp [DoneTransfer.starts, hrises] at hst

end IsRun

/-! ### Something else that is counted -/

/-- Since the start the counter holds what has been added, in 32 bits. -/
def Counts (complete : DoneTransfer → DoneCycle → Bool) (env : ℕ → DoneCycle) (count adds : ℕ → ℕ) (n : ℕ) : Prop :=
  ∀ n₀, Taken complete env n₀ → n₀ + 1 ≤ n → NotYet (n₀ + 1) (Complete complete env) n →
    count n = upTo adds (n₀ + 1) n % 2 ^ 32

variable {env : ℕ → DoneCycle} {found : ℕ → Bool} {fsm : ℕ → DoneFsm} {count adds : ℕ → ℕ} {n : ℕ}

lemma Counts.succ (h : Counts complete env count adds n)
    (hzero : (run complete env n).taken (env n) = true → count (n + 1) = 0)
    (hadd : (run complete env n).due = true → ∀ x, count n = x % 2 ^ 32 → count (n + 1) = (x + adds n) % 2 ^ 32) :
    Counts complete env count adds (n + 1) := by
  intro n₀ ht hle hnot
  rcases hle.eq_or_lt with heq | hlt
  · obtain rfl : n₀ = n := by omega
    rw [hzero ht, Arrival.upTo_self]
    rfl
  · obtain ⟨hold, -⟩ := (Arrival.notYet_succ (by omega)).mp hnot
    rw [hadd (DoneTransfer.at_work ht (by omega) hold).1 _ (h n₀ ht (by omega) hold),
      Arrival.upTo_succ (by omega)]

/-- The pulses are right exactly when, for each start, `R` holds first in the cycle in which the transfer is
complete. Here `R` is what the counter finds, in terms of what has been added. -/
theorem IsRun.pulses_iff_first (h : IsRun env found fsm) {R : ℕ → ℕ → Prop}
    (hcounts : ∀ n, InStep (fsm n) (run complete env n) → Counts complete env count adds n →
      Counts complete env count adds (n + 1))
    (hfound : ∀ n, InStep (fsm n) (run complete env n) → Counts complete env count adds n →
      ∀ n₀, Taken complete env n₀ → n₀ + 1 ≤ n → NotYet (n₀ + 1) (Complete complete env) n →
        (found n = true ↔ R n₀ n)) :
    (∀ n, (fsm (n + 1)).irqReg = (run complete env (n + 1)).done) ↔
      ∀ n₀, Taken complete env n₀ → ∀ n, First (n₀ + 1) (R n₀) n ↔ First (n₀ + 1) (Complete complete env) n := by
  have hiff : ∀ n, InStep (fsm n) (run complete env n) → Counts complete env count adds n →
      (((run complete env n).due = true → found n = complete (run complete env n) (env n)) ↔
        ∀ n₀, Taken complete env n₀ → n₀ + 1 ≤ n → NotYet (n₀ + 1) (Complete complete env) n →
          (R n₀ n ↔ Complete complete env n)) := by
    intro n hstep hc
    constructor
    · intro hag n₀ ht hle hnot
      rw [← hfound n hstep hc n₀ ht hle hnot, hag (DoneTransfer.at_work ht hle hnot).1]
      rfl
    · intro hall hdue
      obtain ⟨n₀, ht, hle, hnot⟩ := DoneTransfer.exists_start hdue
      rw [Bool.eq_iff_iff, hfound n hstep hc n₀ ht hle hnot]
      exact hall n₀ ht hle hnot
  rw [h.pulses_iff]
  have hall := forall_iff_of_kept
    (P := fun n => InStep (fsm n) (run complete env n) ∧ Counts complete env count adds n)
    ⟨h.inStep_zero, fun n₀ _ hle => absurd hle (by omega)⟩
    (fun n hk hcond => ⟨hk.1.step (h.step n) ((hiff n hk.1 hk.2).mpr hcond), hcounts n hk.1 hk.2⟩)
    fun n hk => hiff n hk.1 hk.2
  rw [hall, forall_comm, DoneTransfer.agrees_iff]

end DoneFsm

end FpgaPcie
