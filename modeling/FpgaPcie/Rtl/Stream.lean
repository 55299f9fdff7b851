import FpgaPcie.Lib.RingBuffer

/-!
# Data beats and the output FIFO

The byte lanes of a TLP or AXI4-Stream beat, and the output FIFO that ends both DMA
engines: a ring buffer of `2 ^ OUTPUT_FIFO_ADDR_WIDTH` beats, a registered half-full flag
that throttles the producer, and an output register with its valid bit.
-/

namespace FpgaPcie

/-- The byte lanes of a data bus of `n` bytes, lane 0 on the low bits. -/
abbrev Bytes (n : ℕ) := Fin n → BitVec 8

/-- One AXI4-Stream beat. -/
structure AxisBeat (n : ℕ) where
  tdata : Bytes n
  tkeep : Fin n → Bool
  tlast : Bool

/-- The registers of an output FIFO, `out_fifo_*` and the output register behind it. -/
structure OutFifo (α : Type) where
  outFifo : ℕ → α
  outFifoWrPtrReg : ℕ
  outFifoRdPtrReg : ℕ
  outFifoHalfFullReg : Bool
  outReg : α
  outValidReg : Bool

namespace OutFifo

variable {α : Type} (w : ℕ)

/-- The reset state. The memory cells are not reset. -/
def reset (x : α) : OutFifo α := ⟨fun _ => x, 0, 0, false, x, false⟩

def outFifoFull (s : OutFifo α) : Bool := s.outFifoWrPtrReg == s.outFifoRdPtrReg ^^^ 2 ^ w

def outFifoEmpty (s : OutFifo α) : Bool := s.outFifoWrPtrReg == s.outFifoRdPtrReg

/-- A beat is stored: the producer presents one and the FIFO is not full. -/
def store (s : OutFifo α) (validInit : Bool) : Bool := !s.outFifoFull w && validInit

/-- A beat moves to the output register. -/
def load (s : OutFifo α) (ready : Bool) : Bool :=
  !s.outFifoEmpty && (!s.outValidReg || ready)

/-- One clock edge: `validInit` and `init` come from the producer, `ready` from downstream. -/
def step (s : OutFifo α) (validInit : Bool) (init : α) (ready : Bool) : OutFifo α where
  outFifo := if s.store w validInit then
    Function.update s.outFifo (s.outFifoWrPtrReg % 2 ^ w) init else s.outFifo
  outFifoWrPtrReg := if s.store w validInit then
    (s.outFifoWrPtrReg + 1) % 2 ^ (w + 1) else s.outFifoWrPtrReg
  outFifoRdPtrReg := if s.load ready then
    (s.outFifoRdPtrReg + 1) % 2 ^ (w + 1) else s.outFifoRdPtrReg
  outFifoHalfFullReg := decide (2 ^ (w - 1) ≤
    (s.outFifoWrPtrReg + 2 ^ (w + 1) - s.outFifoRdPtrReg) % 2 ^ (w + 1))
  outReg := if s.load ready then s.outFifo (s.outFifoRdPtrReg % 2 ^ w) else s.outReg
  outValidReg := s.load ready || (s.outValidReg && !ready)

/-- The beats stored in the FIFO, oldest first. -/
def Stores (s : OutFifo α) (q : List α) : Prop :=
  RingBuffer.Holds (2 ^ w) s.outFifo s.outFifoWrPtrReg s.outFifoRdPtrReg q

/-- The beats handed to the FIFO and not yet accepted downstream. -/
def pending (s : OutFifo α) (q : List α) : List α :=
  (if s.outValidReg then [s.outReg] else []) ++ q

/-- What the FIFO stores after a clock edge, when it stored `q`. -/
def queueNext (s : OutFifo α) (v : Bool) (x : α) (ready : Bool) (q : List α) : List α :=
  (if s.load ready then q.tail else q) ++ if v then [x] else []

variable {w} {s : OutFifo α} {q : List α}

lemma two_pow_succ_eq (w : ℕ) : 2 ^ (w + 1) = 2 * 2 ^ w := by
  rw [pow_succ, Nat.mul_comm]

lemma reset_stores (x : α) : (reset x).Stores w [] where
  length_le := Nat.zero_le _
  rd_lt := by simp [reset]
  wr_eq := by simp [reset]
  cell i hi := absurd hi (Nat.not_lt_zero i)

lemma outFifoEmpty_eq (h : s.Stores w q) : s.outFifoEmpty = q.isEmpty := by
  have he := RingBuffer.Holds.empty_iff h
  simp only [outFifoEmpty, Bool.beq_eq_decide_eq, he]
  cases q <;> simp

lemma outFifoFull_eq (h : s.Stores w q) : s.outFifoFull w = decide (q.length = 2 ^ w) := by
  have hf := RingBuffer.Holds.full_iff h
  have hr : s.outFifoRdPtrReg < 2 ^ (w + 1) := by
    rw [two_pow_succ_eq]
    exact RingBuffer.Holds.rd_lt h
  simp only [outFifoFull, Bool.beq_eq_decide_eq, RingBuffer.xor_top_bit hr, two_pow_succ_eq, hf]

lemma store_eq (h : s.Stores w q) (hq : q.length < 2 ^ w) (v : Bool) : s.store w v = v := by
  simp [store, outFifoFull_eq h, Nat.ne_of_lt hq]

lemma load_eq (h : s.Stores w q) (ready : Bool) :
    s.load ready = (!q.isEmpty && (!s.outValidReg || ready)) := by
  rw [load, outFifoEmpty_eq h]

/-- The half-full flag shows whether half the cells were in use one cycle ago. -/
lemma step_halfFull (h : s.Stores w q) (v : Bool) (x : α) (ready : Bool) :
    (s.step w v x ready).outFifoHalfFullReg = decide (2 ^ (w - 1) ≤ q.length) := by
  have hc := RingBuffer.Holds.count h
  simp only [step, two_pow_succ_eq, hc]

@[simp] lemma queueNext_nil (s : OutFifo α) (x : α) (ready : Bool) :
    s.queueNext false x ready [] = [] := by
  simp [queueNext]

lemma queueNext_length_le (s : OutFifo α) (v : Bool) (x : α) (ready : Bool) (q : List α) :
    (s.queueNext v x ready q).length ≤ q.length + v.toNat := by
  have htail : (if s.load ready then q.tail else q).length ≤ q.length := by
    split_ifs <;> simp
  unfold queueNext
  rw [List.length_append]
  cases v with
  | false => simpa using htail
  | true => simpa using htail

/-- One clock edge drops the oldest beat if it moves to the output register and appends
the producer's beat. -/
theorem step_stores (h : s.Stores w q) (v : Bool) (hv : v = true → q.length < 2 ^ w)
    (x : α) (ready : Bool) :
    (s.step w v x ready).Stores w (s.queueNext v x ready q) := by
  have hstore : s.store w v = v := by
    cases v with
    | false => simp [store]
    | true => exact store_eq h (hv rfl) true
  have hpop : RingBuffer.Holds (2 ^ w) s.outFifo s.outFifoWrPtrReg
      (s.step w v x ready).outFifoRdPtrReg (if s.load ready then q.tail else q) := by
    by_cases hl : s.load ready = true
    · have hq : q ≠ [] := by
        rintro rfl
        simp [load_eq h] at hl
      simp only [step, hl, if_true, two_pow_succ_eq]
      exact RingBuffer.Holds.pop h hq
    · simp only [step, hl]
      exact h
  unfold queueNext
  cases v with
  | false =>
    simp only [Stores, step, hstore, Bool.false_eq_true, if_false, List.append_nil]
    exact hpop
  | true =>
    have hlt : (if s.load ready then q.tail else q).length < 2 ^ w := by
      have := hv rfl
      split
      · rw [List.length_tail]
        omega
      · exact this
    have hpush := RingBuffer.Holds.push hpop hlt x
    simp only [Stores, step, hstore, if_true, two_pow_succ_eq] at hpush ⊢
    exact hpush

/-- Beats leave in the order in which they came: what is accepted downstream in a cycle,
followed by what is pending after it, is what was pending before and the new beat. -/
theorem step_pending (h : s.Stores w q) (v : Bool) (x : α) (ready : Bool) :
    (if s.outValidReg && ready then [s.outReg] else []) ++
      (s.step w v x ready).pending (s.queueNext v x ready q) =
      s.pending q ++ if v then [x] else [] := by
  rw [queueNext, load_eq h]
  cases q with
  | nil =>
    cases hr : ready <;> cases hval : s.outValidReg <;>
      simp [pending, step, load_eq h, hval]
  | cons b q =>
    have hhead : s.outFifo (s.outFifoRdPtrReg % 2 ^ w) = b :=
      RingBuffer.Holds.head h (List.cons_ne_nil b q)
    cases hr : ready <;> cases hval : s.outValidReg <;>
      simp [pending, step, load_eq h, hval, hhead]

/-- A beat that is valid and not accepted is kept. -/
theorem step_hold (s : OutFifo α) (v : Bool) (x : α) (hvalid : s.outValidReg = true) :
    (s.step w v x false).outValidReg = true ∧ (s.step w v x false).outReg = s.outReg := by
  simp [step, load, hvalid]

/-- The FIFO with every beat sent through `f`. -/
def map {β : Type} (f : α → β) (s : OutFifo α) : OutFifo β where
  outFifo := f ∘ s.outFifo
  outFifoWrPtrReg := s.outFifoWrPtrReg
  outFifoRdPtrReg := s.outFifoRdPtrReg
  outFifoHalfFullReg := s.outFifoHalfFullReg
  outReg := f s.outReg
  outValidReg := s.outValidReg

/-- The control does not look at the beats. -/
theorem map_step {β : Type} (f : α → β) (s : OutFifo α) (v : Bool) (x : α) (ready : Bool) :
    (s.step w v x ready).map f = (s.map f).step w v (f x) ready := by
  simp only [map, step, apply_ite f, apply_ite (f ∘ ·), Function.comp_update, Function.comp_apply]
  rfl

end OutFifo

end FpgaPcie
