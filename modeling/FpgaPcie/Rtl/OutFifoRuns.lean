import FpgaPcie.Lib.Progress
import FpgaPcie.Rtl.Stream

/-!
# Runs of an output FIFO

The output FIFO clocked with an arbitrary producer, an arbitrary ready flag and resets at any time.
A producer that presents a beat only when a cell is free loses none: since the latest reset the beats
accepted downstream, the output register and the stored beats are together the beats produced.
-/

namespace FpgaPcie

variable {α : Type} {w : ℕ}

/-- What an output FIFO sees in one cycle: the reset, the producer and the ready flag. -/
structure OutCycle (α : Type) where
  rst : Bool
  validInit : Bool
  init : α
  ready : Bool

namespace OutFifo

/-- One clock edge with the reset up. The memory and the half-full flag are not reset; `outReg` is what the
reset branch leaves in the output register. -/
def rstStep (w : ℕ) (s : OutFifo α) (validInit : Bool) (init : α) (ready : Bool) (outReg : α) :
    OutFifo α :=
  { s.step w validInit init ready with
    outFifoWrPtrReg := 0
    outFifoRdPtrReg := 0
    outReg := outReg
    outValidReg := false }

/-- The FIFO is empty and its output register is not valid. -/
structure Cleared (s : OutFifo α) : Prop where
  wrPtr : s.outFifoWrPtrReg = 0
  rdPtr : s.outFifoRdPtrReg = 0
  valid : s.outValidReg = false

lemma reset_cleared (x : α) : (reset x).Cleared := ⟨rfl, rfl, rfl⟩

lemma rstStep_cleared (s : OutFifo α) (v : Bool) (x : α) (ready : Bool) (y : α) :
    (s.rstStep w v x ready y).Cleared := ⟨rfl, rfl, rfl⟩

lemma Cleared.stores {s : OutFifo α} (h : s.Cleared) : s.Stores w [] where
  length_le := Nat.zero_le _
  rd_lt := by rw [h.rdPtr]; positivity
  wr_eq := by simp [h.wrPtr, h.rdPtr]
  cell i hi := absurd hi (Nat.not_lt_zero i)

lemma Cleared.pending {s : OutFifo α} (h : s.Cleared) : s.pending [] = [] := by
  simp [OutFifo.pending, h.valid]

/-- The FIFO stores one queue only. -/
lemma Stores.length_eq {s : OutFifo α} {q q' : List α} (h : s.Stores w q) (h' : s.Stores w q') :
    q.length = q'.length :=
  (RingBuffer.Holds.count h).symm.trans (RingBuffer.Holds.count h')

/-- A producer that is let go by the half-full flag, which is a register, through an enable that may be one
more register: the free half takes the beats that are on their way. -/
structure Room (w : ℕ) (s : OutFifo α) (enable : Bool) (q : List α) : Prop where
  stores : s.Stores w q
  length_le : q.length ≤ 2 ^ (w - 1) + 2
  not_half : s.outFifoHalfFullReg = false → q.length ≤ 2 ^ (w - 1)
  enabled : enable = true → q.length ≤ 2 ^ (w - 1) + 1

lemma two_pow_half (hw : 3 ≤ w) : 2 ^ w = 2 * 2 ^ (w - 1) ∧ 4 ≤ 2 ^ (w - 1) := by
  have hle : 2 ^ 2 ≤ 2 ^ (w - 1) := Nat.pow_le_pow_right (by omega) (by omega)
  refine ⟨?_, hle⟩
  rw [← pow_succ', Nat.sub_add_cancel (by omega)]

lemma Room.free {s : OutFifo α} {enable v : Bool} {q : List α} (h : Room w s enable q) (hw : 3 ≤ w)
    (hv : v = true → enable = true ∨ s.outFifoHalfFullReg = false) (htrue : v = true) : q.length < 2 ^ w := by
  have hpow := two_pow_half hw
  rcases hv htrue with he | hh
  · have := h.enabled he
    omega
  · have := h.not_half hh
    omega

theorem Room.step {s : OutFifo α} {enable v enable' : Bool} {q : List α} (h : Room w s enable q) (hw : 3 ≤ w)
    (hv : v = true → enable = true ∨ s.outFifoHalfFullReg = false)
    (he : enable' = true → s.outFifoHalfFullReg = false) (x : α) (ready : Bool) :
    Room w (s.step w v x ready) enable' (s.queueNext v x ready q) := by
  have hle := s.queueNext_length_le v x ready q
  have hone := Bool.toNat_le v
  have hq : (s.queueNext v x ready q).length ≤ 2 ^ (w - 1) + 2 := by
    cases v with
    | false =>
      have := h.length_le
      rw [Bool.toNat_false] at hle
      omega
    | true =>
      rcases hv rfl with hen | hh
      · have := h.enabled hen
        omega
      · have := h.not_half hh
        omega
  refine ⟨step_stores h.stores v (h.free hw hv) x ready, hq, fun hh => ?_, fun hen => ?_⟩
  · rw [step_halfFull h.stores, decide_eq_false_iff_not] at hh
    omega
  · have := h.not_half (he hen)
    omega

/-- The beats produced since the latest reset. -/
def produced (u : ℕ → OutCycle α) : ℕ → List α
  | 0 => []
  | t + 1 => if (u t).rst then [] else
      produced u t ++ if (u t).validInit then [(u t).init] else []

/-- The beats accepted downstream since the latest reset. -/
def delivered (fifo : ℕ → OutFifo α) (u : ℕ → OutCycle α) : ℕ → List α
  | 0 => []
  | t + 1 => if (u t).rst then [] else
      delivered fifo u t ++ if (fifo t).outValidReg && (u t).ready then [(fifo t).outReg] else []

/-- The states of a FIFO that is clocked with `u`. -/
structure Clocked (w : ℕ) (fifo : ℕ → OutFifo α) (u : ℕ → OutCycle α) : Prop where
  start : (fifo 0).Cleared
  rst : ∀ t, (u t).rst = true → (fifo (t + 1)).Cleared
  step : ∀ t, (u t).rst = false →
    fifo (t + 1) = (fifo t).step w (u t).validInit (u t).init (u t).ready

/-- No beat is lost, repeated or changed on its way through the FIFO. -/
structure NeverDrops (w : ℕ) (fifo : ℕ → OutFifo α) (u : ℕ → OutCycle α) : Prop where
  not_full : ∀ t, (u t).validInit = true → (fifo t).outFifoFull w = false
  difference_le : ∀ t, ((fifo t).outFifoWrPtrReg + 2 ^ (w + 1) - (fifo t).outFifoRdPtrReg) %
    2 ^ (w + 1) ≤ 2 ^ w
  carried : ∀ t, ∃ q, (fifo t).Stores w q ∧ delivered fifo u t ++ (fifo t).pending q = produced u t
  hold : ∀ t, (u t).rst = false → (fifo t).outValidReg = true → (u t).ready = false →
    (fifo (t + 1)).outValidReg = true ∧ (fifo (t + 1)).outReg = (fifo t).outReg
  leaves : (∀ t, ∃ v, t ≤ v ∧ (u v).ready = true) → ∀ t, (∀ v, t ≤ v → (u v).rst = false) →
    ∃ v, t ≤ v ∧ produced u t <+: delivered fifo u v

section Leaves

variable {fifo : ℕ → OutFifo α} {u : ℕ → OutCycle α} {d : ℕ → ℕ} {t : ℕ}

/-- A beat in the output register leaves with the next ready cycle. -/
lemma exists_accepted
    (hstep : ∀ v, t ≤ v → fifo (v + 1) = (fifo v).step w (u v).validInit (u v).init (u v).ready)
    (hd : ∀ v, t ≤ v → d (v + 1) = d v + ((fifo v).outValidReg && (u v).ready).toNat)
    (hready : ∀ t, ∃ v, t ≤ v ∧ (u v).ready = true) {v : ℕ} (hv : t ≤ v)
    (hvalid : (fifo v).outValidReg = true) : ∃ v', v ≤ v' ∧ d v + 1 ≤ d v' := by
  have hwait : Progress.LeadsTo
      (fun v' => t ≤ v' ∧ (fifo v').outValidReg = true ∧ d v ≤ d v') (fun v' => d v + 1 ≤ d v') := by
    apply Progress.leadsTo_of_event (E := fun v' => (u v').ready = true)
    · rintro v' ⟨hv', hval, hle⟩ hr
      rw [Bool.not_eq_true] at hr
      have hhold := step_hold (w := w) (fifo v') (u v').validInit (u v').init hval
      rw [hd v' hv', hstep v' hv', hr]
      exact ⟨by omega, hhold.1, by omega⟩
    · rintro v' ⟨hv', hval, hle⟩ hr
      rw [hd v' hv', hval, hr]
      exact Nat.add_le_add_right hle 1
    · exact fun v' _ => hready v'
  exact hwait v ⟨hv, hvalid, le_rfl⟩

/-- As long as something is pending, one more beat leaves. -/
theorem exists_delivered
    (hstep : ∀ v, t ≤ v → fifo (v + 1) = (fifo v).step w (u v).validInit (u v).init (u v).ready)
    (hd : ∀ v, t ≤ v → d (v + 1) = d v + ((fifo v).outValidReg && (u v).ready).toNat)
    (hready : ∀ t, ∃ v, t ≤ v ∧ (u v).ready = true) {n : ℕ}
    (hcarried : ∀ v, t ≤ v → ∃ q, (fifo v).Stores w q ∧ n ≤ d v + ((fifo v).pending q).length) :
    ∃ v, t ≤ v ∧ n ≤ d v := by
  suffices h : ∀ k, k ≤ n → ∃ v, t ≤ v ∧ k ≤ d v from h n le_rfl
  intro k
  induction k with
  | zero => exact fun _ => ⟨t, le_rfl, Nat.zero_le _⟩
  | succ k ih =>
    intro hk
    obtain ⟨v, hv, hle⟩ := ih (by omega)
    by_cases hmore : k + 1 ≤ d v
    · exact ⟨v, hv, hmore⟩
    obtain ⟨q, hq, hn⟩ := hcarried v hv
    -- a beat waits in the output register, or it moves there in this cycle
    cases hvalid : (fifo v).outValidReg with
    | true =>
      obtain ⟨v', hv', hgrow⟩ := exists_accepted hstep hd hready hv hvalid
      exact ⟨v', hv.trans hv', by omega⟩
    | false =>
      have hne : q ≠ [] := by
        rintro rfl
        rw [OutFifo.pending, hvalid] at hn
        simp at hn
        omega
      have hload : (fifo (v + 1)).outValidReg = true := by
        simp [hstep v hv, step, load_eq hq, hvalid, hne]
      have hsame : d (v + 1) = d v := by
        rw [hd v hv, hvalid]
        rfl
      obtain ⟨v', hv', hgrow⟩ := exists_accepted (v := v + 1) hstep hd hready (Nat.le_succ_of_le hv) hload
      exact ⟨v', by omega, by omega⟩

end Leaves

namespace Clocked

variable {fifo : ℕ → OutFifo α} {u : ℕ → OutCycle α}

lemma carried (h : Clocked w fifo u)
    (hroom : ∀ t q, (fifo t).Stores w q → (u t).validInit = true → q.length < 2 ^ w) (t : ℕ) :
    ∃ q, (fifo t).Stores w q ∧ delivered fifo u t ++ (fifo t).pending q = produced u t := by
  induction t with
  | zero => exact ⟨[], h.start.stores, h.start.pending⟩
  | succ t ih =>
    obtain ⟨q, hq, hlog⟩ := ih
    cases hrst : (u t).rst with
    | true =>
      have hclear := h.rst t hrst
      refine ⟨[], hclear.stores, ?_⟩
      simp [delivered, produced, hrst, hclear.pending]
    | false =>
      refine ⟨(fifo t).queueNext (u t).validInit (u t).init (u t).ready q, ?_, ?_⟩
      · rw [h.step t hrst]
        exact step_stores hq _ (hroom t q hq) _ _
      · have hpend := step_pending hq (u t).validInit (u t).init (u t).ready
        simp only [delivered, produced, hrst, Bool.false_eq_true, if_false]
        rw [h.step t hrst, List.append_assoc, hpend, ← List.append_assoc, hlog]

lemma produced_mono {t v : ℕ} (hrst : ∀ v, t ≤ v → (u v).rst = false) (hv : t ≤ v) :
    produced u t <+: produced u v := by
  induction v, hv using Nat.le_induction with
  | base => exact List.prefix_rfl
  | succ v hv ih =>
    rw [produced, hrst v hv]
    exact ih.trans (List.prefix_append _ _)

/-- A producer that presents a beat only when a cell is free loses none. -/
theorem neverDrops (h : Clocked w fifo u)
    (hroom : ∀ t q, (fifo t).Stores w q → (u t).validInit = true → q.length < 2 ^ w) :
    NeverDrops w fifo u where
  not_full t hv := by
    obtain ⟨q, hq, -⟩ := h.carried hroom t
    rw [outFifoFull_eq hq, decide_eq_false_iff_not]
    exact Nat.ne_of_lt (hroom t q hq hv)
  difference_le t := by
    obtain ⟨q, hq, -⟩ := h.carried hroom t
    rw [two_pow_succ_eq, RingBuffer.Holds.count hq]
    exact RingBuffer.Holds.length_le hq
  carried := h.carried hroom
  hold t hrst hvalid hready := by
    rw [h.step t hrst, hready]
    exact step_hold (fifo t) _ _ hvalid
  leaves hready t hrst := by
    have hlog : ∀ v, t ≤ v → ∃ q, (fifo v).Stores w q ∧
        (produced u t).length ≤ (delivered fifo u v).length + ((fifo v).pending q).length := by
      intro v hv
      obtain ⟨q, hq, heq⟩ := h.carried hroom v
      have hle := (produced_mono hrst hv).length_le
      rw [← heq, List.length_append] at hle
      exact ⟨q, hq, hle⟩
    have hcount : ∀ v, t ≤ v → (delivered fifo u (v + 1)).length =
        (delivered fifo u v).length + ((fifo v).outValidReg && (u v).ready).toNat := by
      intro v hv
      rw [delivered, hrst v hv]
      cases (fifo v).outValidReg && (u v).ready <;> simp
    obtain ⟨v, hv, hle⟩ := exists_delivered (fun v hv => h.step v (hrst v hv)) hcount hready hlog
    obtain ⟨q, -, heq⟩ := h.carried hroom v
    refine ⟨v, hv, List.prefix_of_prefix_length_le (produced_mono hrst hv) ?_ hle⟩
    rw [← heq]
    exact List.prefix_append _ _

end Clocked

/-- The ready flag matters only when a beat is valid. -/
lemma step_ready {α : Type} (w : ℕ) (s : OutFifo α) (v : Bool) (x : α) (r : Bool) :
    s.step w v x (r || !s.outValidReg) = s.step w v x r := by
  unfold step load
  cases s.outValidReg <;> simp

end OutFifo

end FpgaPcie
