import FpgaPcie.Lib.Arrival
import FpgaPcie.Rtl.RcStream

/-!
# The H2C completion interrupt

`dma_rx_rd_irq` on a 512-bit bus: from the start of a transfer on it adds up what the headers of the
RC interface announce, and raises the interrupt when the sum has reached the length. So the
interrupt comes behind the payload exactly when the headers do not run ahead of it.
-/

namespace FpgaPcie

inductive RdIrqState
  | idle | start
  deriving DecidableEq

/-- The registers of `dma_rx_rd_irq`. -/
structure RxRdIrq where
  rdStateReg : RdIrqState
  txRdLengthReg : ℕ
  txRdStartReg : Bool
  cycleReg : ℕ
  txRdIrqReg : Bool

namespace RxRdIrq

variable (s : RxRdIrq) (txRdStart : Bool) (txRdLength : ℕ) (adds : Option ℕ)

def reset : RxRdIrq := ⟨.idle, 0, false, 0, false⟩

/-- `sof_dw[is_sop_ptr[k]]`: the DW count of the header shifted to bytes, in ten bits. -/
def sofDw (rc : RcPins) (k : Fin 4) : ℕ := (rc.dwordCount (rc.isSopPtr k) <<< 2) % 2 ^ 10

/-- What the headers of a beat announce. -/
def announced (rc : RcPins) : ℕ :=
  if rc.isRcSop = 0b0001 then sofDw rc 0
  else if rc.isRcSop = 0b0011 then sofDw rc 0 + sofDw rc 1
  else if rc.isRcSop = 0b0111 then sofDw rc 0 + sofDw rc 1 + sofDw rc 2
  else if rc.isRcSop = 0b1111 then sofDw rc 0 + sofDw rc 1 + sofDw rc 2 + sofDw rc 3
  else 0

/-- The sum has reached the length. -/
def reached : Bool := decide (s.txRdLengthReg ≤ s.cycleReg) && decide (0 < s.cycleReg)

/-- `tx_rd_irq_next` -/
def txRdIrqNext : Bool :=
  match s.rdStateReg with
  | .idle => false
  | .start => if s.reached then true else s.txRdIrqReg

/-- `adds` is what the branch for the bus width adds to the counter, if it adds anything. -/
def clock : RxRdIrq :=
  let txRdIrqReg := if s.txRdIrqReg then false else if s.txRdIrqNext then true else s.txRdIrqReg
  match s.rdStateReg with
  | .idle =>
    { rdStateReg := if txRdStart && !s.txRdStartReg then .start else .idle
      txRdLengthReg := txRdLength
      txRdStartReg := txRdStart
      cycleReg := 0
      txRdIrqReg := txRdIrqReg }
  | .start =>
    { rdStateReg := if s.reached then .idle else .start
      txRdLengthReg := s.txRdLengthReg
      txRdStartReg := s.txRdStartReg
      cycleReg := adds.elim s.cycleReg fun a => (s.cycleReg + a) % 2 ^ 32
      txRdIrqReg := txRdIrqReg }

end RxRdIrq

/-- What the RC interface and the register file do in one cycle. -/
structure RcCycle where
  beat : RcBeat
  tvalid : Bool
  tready : Bool
  txRdLength : ℕ
  txRdStart : Bool

def RcCycle.accepted (e : RcCycle) : Bool := e.tready && e.tvalid

/-- What the 512-bit branch adds. -/
def RcCycle.rcAdds (e : RcCycle) : Option ℕ :=
  if e.accepted then some (RxRdIrq.announced e.beat.pins) else none

/-- What the headers that start in a beat announce: DW counts as bytes, modulo 1024. -/
def RcBeat.announced (b : RcBeat) : ℕ := (b.starts.map fun s => 4 * s.2.dwordCount % 1024).sum

/-! ### The headers of a beat -/

lemma find_slot {starts : List (Fin 4 × RcCpl)} (h : starts.Pairwise fun a b => a.1 < b.1)
    {s : Fin 4 × RcCpl} (hs : s ∈ starts) : starts.find? (fun s' => s'.1 == s.1) = some s := by
  induction starts with
  | nil => cases hs
  | cons a rest ih =>
    obtain ⟨ha, hrest⟩ := List.pairwise_cons.mp h
    rcases List.mem_cons.mp hs with rfl | hs
    · simp
    · rw [List.find?_cons_of_neg (by simpa using (ha s hs).ne)]
      exact ih hrest hs

lemma RcBeat.starts_length_le (b : RcBeat) : b.starts.length ≤ 4 := by
  have hnodup : (b.starts.map Prod.fst).Nodup := by
    rw [List.Nodup, List.pairwise_map]
    exact b.ordered.imp fun h => h.ne
  simpa using hnodup.length_le_card

lemma RcBeat.sofDw_pins {b : RcBeat} {k : Fin 4} {s : Fin 4 × RcCpl}
    (hs : b.starts[k.val]? = some s) : RxRdIrq.sofDw b.pins k = 4 * s.2.dwordCount % 1024 := by
  have hfind := find_slot b.ordered (List.mem_of_getElem? hs)
  simp [RxRdIrq.sofDw, pins, hs, hfind, Nat.shiftLeft_eq, Nat.mul_comm]

lemma RcBeat.announced_pins (b : RcBeat) : RxRdIrq.announced b.pins = b.announced := by
  have hlen := b.starts_length_le
  have hsop : b.pins.isRcSop = BitVec.ofNat 4 (2 ^ b.starts.length - 1) := rfl
  have hdw : ∀ (k : Fin 4) s, b.starts[k.val]? = some s →
      RxRdIrq.sofDw b.pins k = 4 * s.2.dwordCount % 1024 := fun k s hs => sofDw_pins hs
  rw [RxRdIrq.announced, hsop, RcBeat.announced]
  match hb : b.starts with
  | [] => simp
  | [s₀] =>
    simp only [hb] at hdw
    simp [hdw 0 s₀ rfl]
  | [s₀, s₁] =>
    simp only [hb] at hdw
    simp [hdw 0 s₀ rfl, hdw 1 s₁ rfl]
  | [s₀, s₁, s₂] =>
    simp only [hb] at hdw
    simp [hdw 0 s₀ rfl, hdw 1 s₁ rfl, hdw 2 s₂ rfl, Nat.add_assoc]
  | [s₀, s₁, s₂, s₃] =>
    simp only [hb] at hdw
    simp [hdw 0 s₀ rfl, hdw 1 s₁ rfl, hdw 2 s₂ rfl, hdw 3 s₃ rfl, Nat.add_assoc]
  | _ :: _ :: _ :: _ :: _ :: _ =>
    rw [hb] at hlen
    simp only [List.length_cons] at hlen
    omega

namespace RcIrq

open Arrival (upTo)

variable (env : ℕ → RcCycle)

/-- The interrupt logic. -/
def irq : ℕ → RxRdIrq
  | 0 => .reset
  | n + 1 => (irq n).clock (env n).txRdStart (env n).txRdLength (env n).rcAdds

/-- The completion that is open on the RC interface. -/
def carry : ℕ → Option RcOpen
  | 0 => none
  | n + 1 => if (env n).accepted then (env n).beat.next (carry n) else carry n

/-- The H2C payload in the beat of a cycle. -/
def moves (n : ℕ) : ℕ := if (env n).accepted then (env n).beat.moved (carry env n) else 0

/-- The H2C payload since the start in cycle `n₀`. -/
def moved (n₀ n : ℕ) : ℕ := upTo (moves env) (n₀ + 1) n

/-- The counter has gone to work in cycle `n₀` and is at work in all cycles up to `n`. -/
structure AtWork (n₀ n : ℕ) : Prop where
  idle : (irq env n₀).rdStateReg = .idle
  lt : n₀ < n
  work : ∀ k, n₀ < k → k ≤ n → (irq env k).rdStateReg = .start

/-- The interrupt of a transfer comes when its payload has been moved. -/
def IrqOk : Prop := ∀ n, (irq env (n + 1)).txRdIrqReg = true →
  ∃ n₀, AtWork env n₀ n ∧ (env n₀).txRdLength ≤ moved env n₀ (n + 1)

/-! ### Conditions on the inputs -/

/-- The beats continue the stream. -/
def FitsRun : Prop := ∀ n, (env n).accepted = true → (env n).beat.Fits (carry env n)

/-- The start input rises. -/
def Rises (n : ℕ) : Prop := (env n).txRdStart = true ∧ ∀ m, n = m + 1 → (env m).txRdStart = false

/-- Until the payload of a start has been moved, all completions that begin are whole DWs of H2C data. -/
def Own (n₀ : ℕ) : Prop := ∀ n, n₀ < n → moved env n₀ n < (env n₀).txRdLength → (env n).accepted = true →
  ∀ s ∈ (env n).beat.starts, s.2.owner = .h2cData ∧ s.2.bytes = 4 * s.2.dwordCount

/-- When the last byte of a start is in the completion that is open, it comes in this cycle: in the one
behind the header of its completion at the latest. -/
def Prompt (n₀ : ℕ) : Prop := ∀ n, n₀ < n → moved env n₀ n < (env n₀).txRdLength →
  (env n₀).txRdLength ≤ moved env n₀ n + rcOwed (carry env n) → (env n₀).txRdLength ≤ moved env n₀ (n + 1)

variable {env} {n₀ n : ℕ}

/-! ### The counter at work -/

lemma exists_atWork (h : (irq env n).rdStateReg = .start) : ∃ n₀, AtWork env n₀ n := by
  induction n with
  | zero => cases h
  | succ n ih =>
    cases hs : (irq env n).rdStateReg with
    | idle =>
      refine ⟨n, hs, Nat.lt_succ_self n, fun k hlo hhi => ?_⟩
      obtain rfl : k = n + 1 := by omega
      exact h
    | start =>
      obtain ⟨n₀, hwork⟩ := ih hs
      refine ⟨n₀, hwork.idle, by have := hwork.lt; omega, fun k hlo hhi => ?_⟩
      rcases hhi.lt_or_eq with hlt | rfl
      · exact hwork.work k hlo (by omega)
      · exact h

/-- The start register holds the start input of the last cycle, or a start that is over. -/
lemma startReg (n : ℕ) : ((irq env n).rdStateReg = .start → (irq env n).txRdStartReg = true) ∧
    ∀ m, n = m + 1 → (env m).txRdStart = true → (irq env n).txRdStartReg = true := by
  induction n with
  | zero => exact ⟨nofun, nofun⟩
  | succ n ih =>
    cases hs : (irq env n).rdStateReg with
    | idle =>
      have hnext : (irq env (n + 1)).txRdStartReg = (env n).txRdStart := by simp [irq, RxRdIrq.clock, hs]
      constructor
      · intro h
        rw [hnext]
        by_contra hlow
        simp [irq, RxRdIrq.clock, hs, hlow] at h
      · intro m hm hstart
        obtain rfl : n = m := by omega
        rw [hnext, hstart]
    | start =>
      have hnext : (irq env (n + 1)).txRdStartReg = (irq env n).txRdStartReg := by simp [irq, RxRdIrq.clock, hs]
      exact ⟨fun _ => hnext.trans (ih.1 hs), fun _ _ _ => hnext.trans (ih.1 hs)⟩

/-- The counter goes to work when the start input rises. -/
lemma AtWork.rises (h : AtWork env n₀ n) : Rises env n₀ := by
  have hnext := h.work (n₀ + 1) (Nat.lt_succ_self n₀) h.lt
  have hedge : (env n₀).txRdStart = true ∧ (irq env n₀).txRdStartReg = false := by
    by_contra hno
    simp only [irq, RxRdIrq.clock, h.idle] at hnext
    split_ifs at hnext with hedge
    exact hno (by simpa using hedge)
  refine ⟨hedge.1, fun m hm => ?_⟩
  by_contra hlast
  have hreg : (irq env n₀).txRdStartReg = true := (startReg n₀).2 m hm (by simpa using hlast)
  rw [hedge.2] at hreg
  cases hreg

lemma AtWork.pred (h : AtWork env n₀ (n + 1)) (hlt : n₀ < n) : AtWork env n₀ n :=
  ⟨h.idle, hlt, fun k hlo hhi => h.work k hlo (by omega)⟩

/-- What the headers of a cycle announce. -/
def announces (env : ℕ → RcCycle) (n : ℕ) : ℕ := if (env n).accepted then (env n).beat.announced else 0

lemma rcAdds_eq (e : RcCycle) : e.rcAdds = if e.accepted then some e.beat.announced else none := by
  rw [RcCycle.rcAdds, RcBeat.announced_pins]

/-- One cycle of the counter at work. -/
lemma count_succ {x : ℕ} (hs : (irq env n).rdStateReg = .start) (hx : (irq env n).cycleReg = x % 2 ^ 32) :
    (irq env (n + 1)).cycleReg = (x + announces env n) % 2 ^ 32 ∧
      (irq env (n + 1)).txRdLengthReg = (irq env n).txRdLengthReg := by
  rw [irq, RxRdIrq.clock, hs, rcAdds_eq, announces]
  cases (env n).accepted <;> simp [hx]

/-- The counter holds what has been announced since the start. -/
theorem AtWork.count (h : AtWork env n₀ n) :
    (irq env n).cycleReg = upTo (announces env) (n₀ + 1) n % 2 ^ 32 ∧
      (irq env n).txRdLengthReg = (env n₀).txRdLength := by
  obtain ⟨d, rfl⟩ := Nat.exists_eq_add_of_lt h.lt
  induction d with
  | zero =>
    have hidle := h.idle
    simp [irq, RxRdIrq.clock, hidle]
  | succ d ih =>
    have hold := h.pred (by omega)
    obtain ⟨hcycle, hlength⟩ := ih hold
    obtain ⟨hcycle', hlength'⟩ := count_succ (hold.work (n₀ + d + 1) (by omega) le_rfl) hcycle
    rw [← Nat.add_assoc, Arrival.upTo_succ (by omega)]
    exact ⟨hcycle', hlength'.trans hlength⟩

/-- An interrupt comes behind a cycle in which what has been announced reaches the length. -/
lemma irq_high (h : (irq env (n + 1)).txRdIrqReg = true) : ∃ n₀, AtWork env n₀ n ∧
    (env n₀).txRdLength ≤ upTo (announces env) (n₀ + 1) n % 2 ^ 32 := by
  cases hs : (irq env n).rdStateReg with
  | idle => cases hr : (irq env n).txRdIrqReg <;> simp [irq, RxRdIrq.clock, RxRdIrq.txRdIrqNext, hs, hr] at h
  | start =>
    obtain ⟨n₀, hwork⟩ := exists_atWork hs
    obtain ⟨hcycle, hlength⟩ := hwork.count
    refine ⟨n₀, hwork, ?_⟩
    rw [← hcycle, ← hlength]
    by_contra hlt
    have hnot : (irq env n).reached = false := by simp [RxRdIrq.reached, hlt]
    cases hr : (irq env n).txRdIrqReg <;> simp [irq, RxRdIrq.clock, RxRdIrq.txRdIrqNext, hs, hr, hnot] at h

/-! ### Streams whose headers do not run ahead -/

lemma announced_le_h2cBytes {b : RcBeat}
    (h : ∀ s ∈ b.starts, s.2.owner = .h2cData ∧ s.2.bytes = 4 * s.2.dwordCount) :
    b.announced ≤ b.h2cBytes := by
  apply List.sum_le_sum
  intro s hs
  obtain ⟨ho, hb⟩ := h s hs
  have hmod := Nat.mod_le (4 * s.2.dwordCount) 1024
  simp only [RcCpl.owed, RcCpl.bytesIn, ho, hb, if_true]
  omega

lemma carry_le (n : ℕ) : ∀ o ∈ carry env n, o.2 ≤ o.1.dwordCount := by
  induction n with
  | zero => exact nofun
  | succ n ih =>
    intro o ho
    rw [carry] at ho
    split_ifs at ho
    · exact RcBeat.next_le ih o ho
    · exact ih o ho

lemma moved_mono {m : ℕ} (h : m ≤ n) : moved env n₀ m ≤ moved env n₀ n := Arrival.upTo_mono h

/-- The payload of a beat and what is open behind it is what was open and what its headers bring. -/
lemma moves_add_owed (hfit : FitsRun env) (n : ℕ) : moves env n + rcOwed (carry env (n + 1)) =
    rcOwed (carry env n) + if (env n).accepted then (env n).beat.h2cBytes else 0 := by
  cases ha : (env n).accepted with
  | false => simp [moves, carry, ha]
  | true => simpa [moves, carry, ha] using RcBeat.moved_add_owed (hfit n ha) (carry_le n)

/-- What has been announced since a start has been moved or is open. -/
theorem announced_le (hfit : FitsRun env) (hown : Own env n₀) (hle : n₀ + 1 ≤ n)
    (hlt : moved env n₀ n < (env n₀).txRdLength) :
    upTo (announces env) (n₀ + 1) n ≤ moved env n₀ n + rcOwed (carry env n) := by
  induction n, hle using Nat.le_induction with
  | base => simp
  | succ n hn ih =>
    have hstep : moved env n₀ (n + 1) = moved env n₀ n + moves env n := Arrival.upTo_succ hn
    have hbefore := ih (by omega)
    have hbeat := moves_add_owed hfit n
    have hannounced : announces env n ≤ if (env n).accepted then (env n).beat.h2cBytes else 0 := by
      unfold announces
      split_ifs with ha
      · exact announced_le_h2cBytes (hown n (by omega) (by omega) ha)
      · exact le_rfl
    rw [Arrival.upTo_succ hn, hstep]
    omega

/-- The interrupt comes behind the payload when, until then, only whole DWs of H2C data are announced and
the last byte comes in the cycle behind its header at the latest. -/
lemma irqOk_of_prompt (hfit : FitsRun env) (h : ∀ n₀, Rises env n₀ → Own env n₀ ∧ Prompt env n₀) :
    IrqOk env := by
  intro n hirq
  obtain ⟨n₀, hwork, hlen⟩ := irq_high hirq
  obtain ⟨hown, hprompt⟩ := h n₀ hwork.rises
  refine ⟨n₀, hwork, ?_⟩
  by_cases hmoved : moved env n₀ n < (env n₀).txRdLength
  · have hle := announced_le hfit hown hwork.lt hmoved
    have hmod := Nat.mod_le (upTo (announces env) (n₀ + 1) n) (2 ^ 32)
    exact hprompt n hwork.lt hmoved (by omega)
  · exact (not_lt.mp hmoved).trans (moved_mono (Nat.le_succ n))

/-! ### Streams that are counted in full -/

/-- No H2C completion is open at the start, and until the payload has been moved the counter misses
nothing: completions are whole DWs of H2C data with less than 256 DWs, and their sum fits it. -/
structure Clean (env : ℕ → RcCycle) (n₀ : ℕ) : Prop where
  owed : rcOwed (carry env (n₀ + 1)) = 0
  own : Own env n₀
  small : ∀ n, n₀ < n → moved env n₀ n < (env n₀).txRdLength → (env n).accepted = true →
    ∀ s ∈ (env n).beat.starts, s.2.dwordCount < 256
  fits : ∀ n, n₀ < n → moved env n₀ n < (env n₀).txRdLength → moved env n₀ n + rcOwed (carry env n) < 2 ^ 32

lemma announced_eq_h2cBytes {b : RcBeat} (h : ∀ s ∈ b.starts, s.2.owner = .h2cData ∧ s.2.bytes = 4 * s.2.dwordCount)
    (hsmall : ∀ s ∈ b.starts, s.2.dwordCount < 256) : b.announced = b.h2cBytes := by
  rw [RcBeat.announced, RcBeat.h2cBytes]
  refine congrArg List.sum (List.map_congr_left fun s hs => ?_)
  obtain ⟨ho, hb⟩ := h s hs
  have hlt := hsmall s hs
  simp only [RcCpl.owed, RcCpl.bytesIn, ho, hb, if_true]
  omega

theorem Clean.announced_eq (h : Clean env n₀) (hfit : FitsRun env) (hle : n₀ + 1 ≤ n)
    (hlt : moved env n₀ n < (env n₀).txRdLength) :
    upTo (announces env) (n₀ + 1) n = moved env n₀ n + rcOwed (carry env n) := by
  induction n, hle using Nat.le_induction with
  | base => simp [moved, h.owed]
  | succ n hn ih =>
    have hstep : moved env n₀ (n + 1) = moved env n₀ n + moves env n := Arrival.upTo_succ hn
    have hbefore := ih (by omega)
    have hbeat := moves_add_owed hfit n
    have hannounced : announces env n = if (env n).accepted then (env n).beat.h2cBytes else 0 := by
      unfold announces
      split_ifs with ha
      · exact announced_eq_h2cBytes (h.own n (by omega) (by omega) ha) (h.small n (by omega) (by omega) ha)
      · rfl
    rw [Arrival.upTo_succ hn, hstep]
    omega

lemma AtWork.start_unique {m₀ : ℕ} (h : AtWork env n₀ n) (h' : AtWork env m₀ n) : m₀ = n₀ := by
  rcases lt_trichotomy m₀ n₀ with hlt | heq | hlt
  · have hs := h'.work n₀ hlt h.lt.le
    rw [h.idle] at hs
    cases hs
  · exact heq
  · have hs := h.work m₀ hlt h'.lt.le
    rw [h'.idle] at hs
    cases hs

/-- While at work the interrupt is low. -/
lemma AtWork.irq_low (h : AtWork env n₀ n) : (irq env n).txRdIrqReg = false := by
  obtain ⟨m, rfl⟩ : ∃ m, n = m + 1 := ⟨n - 1, by have := h.lt; omega⟩
  by_contra hirq
  have hstate := h.work (m + 1) h.lt le_rfl
  cases hs : (irq env m).rdStateReg with
  | idle => cases hr : (irq env m).txRdIrqReg <;> simp [irq, RxRdIrq.clock, RxRdIrq.txRdIrqNext, hs, hr] at hirq
  | start =>
    have hnot : (irq env m).reached = false := by
      by_contra hr
      simp [irq, RxRdIrq.clock, hs, hr] at hstate
    cases hr : (irq env m).txRdIrqReg <;>
      simp [irq, RxRdIrq.clock, RxRdIrq.txRdIrqNext, hs, hr, hnot] at hirq

lemma AtWork.reached_iff (h : AtWork env n₀ n) (hlt : upTo (announces env) (n₀ + 1) n < 2 ^ 32) :
    (irq env n).reached = true ↔ (env n₀).txRdLength ≤ upTo (announces env) (n₀ + 1) n ∧
      0 < upTo (announces env) (n₀ + 1) n := by
  obtain ⟨hcycle, hlength⟩ := h.count
  rw [RxRdIrq.reached, hcycle, hlength, Nat.mod_eq_of_lt hlt]
  simp only [Bool.and_eq_true, decide_eq_true_eq]

lemma AtWork.succ (h : AtWork env n₀ n) (hnot : (irq env n).reached = false) : AtWork env n₀ (n + 1) := by
  refine ⟨h.idle, by have := h.lt; omega, fun k hlo hhi => ?_⟩
  rcases hhi.lt_or_eq with hlt | rfl
  · exact h.work k hlo (by omega)
  · simp [irq, RxRdIrq.clock, h.work n h.lt le_rfl, hnot]

/-- On such a stream a last byte that comes later is missed. -/
lemma Clean.prompt (h : Clean env n₀) (hfit : FitsRun env) (hwork : AtWork env n₀ (n₀ + 1)) (hok : IrqOk env) :
    Prompt env n₀ := by
  intro n hlt hmoved hopen
  by_contra hlate
  -- the counter is at work up to the first cycle in which the headers have announced the length
  have hsum : ∀ k, n₀ + 1 ≤ k → k ≤ n →
      upTo (announces env) (n₀ + 1) k < 2 ^ 32 ∧ moved env n₀ k < (env n₀).txRdLength := by
    intro k hlo hhi
    have hlow : moved env n₀ k < (env n₀).txRdLength := (moved_mono hhi).trans_lt hmoved
    rw [h.announced_eq hfit hlo hlow]
    exact ⟨h.fits k hlo hlow, hlow⟩
  obtain ⟨j, hj, hfirst⟩ := Arrival.exists_first (a := n₀ + 1)
    (P := fun n => (env n₀).txRdLength ≤ upTo (announces env) (n₀ + 1) n) hlt (by
      rw [h.announced_eq hfit hlt hmoved]
      exact hopen)
  have hat : ∀ k, n₀ + 1 ≤ k → k ≤ j → AtWork env n₀ k := by
    intro k hlo
    induction k, hlo using Nat.le_induction with
    | base => exact fun _ => hwork
    | succ k hk ih =>
      intro hle
      have hold := ih (by omega)
      refine hold.succ ?_
      by_contra hr
      have hreached := (hold.reached_iff (hsum k hk (by omega)).1).mp (by simpa using hr)
      exact hfirst.notYet k hk (by omega) hreached.1
  have hwork' := hat j hfirst.le le_rfl
  have hreached : (irq env j).reached = true := by
    have hpos := (hsum j hfirst.le hj).2
    have hnow : (env n₀).txRdLength ≤ upTo (announces env) (n₀ + 1) j := hfirst.now
    exact (hwork'.reached_iff (hsum j hfirst.le hj).1).mpr ⟨hnow, by omega⟩
  have hirq : (irq env (j + 1)).txRdIrqReg = true := by
    simp [irq, RxRdIrq.clock, RxRdIrq.txRdIrqNext, hwork'.work j hwork'.lt le_rfl, hwork'.irq_low, hreached]
  obtain ⟨m₀, hwork'', hdone⟩ := hok j hirq
  obtain rfl := hwork'.start_unique hwork''
  have hmono : moved env m₀ (j + 1) ≤ moved env m₀ (n + 1) := moved_mono (by omega)
  exact hlate (hdone.trans hmono)

/-- The interrupt comes behind the payload when, until then, only whole DWs of H2C data are announced and
the last byte comes in the cycle behind its header at the latest. Where the counter misses nothing this
last condition is necessary too. -/
theorem rx_irq_of_prompt (hfit : FitsRun env) :
    ((∀ n₀, Rises env n₀ → Own env n₀ ∧ Prompt env n₀) → IrqOk env) ∧
      ∀ n₀, AtWork env n₀ (n₀ + 1) → Clean env n₀ → IrqOk env → Prompt env n₀ :=
  ⟨irqOk_of_prompt hfit, fun _ hwork hclean => hclean.prompt hfit hwork⟩

/-- A transfer of 88 bytes in three completions that share beats, and a list completion behind them. -/
def straddledCycle (n : ℕ) : RcCycle where
  beat :=
    { starts :=
        if n = 1 then [(0, ⟨.h2cData, 5, 20⟩), (2, ⟨.h2cData, 16, 64⟩)]
        else if n = 2 then [(3, ⟨.h2cData, 1, 4⟩)]
        else if n = 3 then [(0, ⟨.c2hList, 8, 32⟩)] else []
      other := fun _ => 7
      ordered := by split_ifs <;> decide }
  tvalid := decide (1 ≤ n ∧ n ≤ 3)
  tready := true
  txRdLength := 88
  txRdStart := n == 0

lemma rises_straddled {n₀ : ℕ} (h : Rises straddledCycle n₀) : n₀ = 0 := by
  simpa [straddledCycle] using h.1

lemma accepted_straddled {n : ℕ} (h : (straddledCycle n).accepted = true) : n = 1 ∨ n = 2 ∨ n = 3 := by
  have hn : 1 ≤ n ∧ n ≤ 3 := by simpa [RcCycle.accepted, straddledCycle] using h
  omega

lemma moved_straddled {n : ℕ} (h : moved straddledCycle 0 n < 88) : n < 3 := by
  by_contra hge
  have hall : moved straddledCycle 0 3 ≤ moved straddledCycle 0 n := moved_mono (by omega)
  have h88 : moved straddledCycle 0 3 = 88 := by decide
  omega

/-- The interrupt comes, and in time. -/
theorem rx_irq_in_time : (irq straddledCycle 4).txRdIrqReg = true ∧ IrqOk straddledCycle := by
  have hfit : FitsRun straddledCycle := by
    intro n ha
    rcases accepted_straddled ha with rfl | rfl | rfl
    · exact ⟨by decide, fun _ => by decide, by decide, fun h => absurd rfl h, trivial⟩
    · exact ⟨by decide, fun h => absurd rfl h, trivial⟩
    · exact ⟨by decide, fun h => absurd rfl h, trivial⟩
  refine ⟨by decide, (rx_irq_of_prompt hfit).1 fun n₀ hrises => ?_⟩
  obtain rfl := rises_straddled hrises
  constructor
  · intro n hlt hmoved _
    have hn := moved_straddled hmoved
    interval_cases n <;> decide
  · intro n hlt hmoved
    have hn := moved_straddled hmoved
    interval_cases n <;> decide

/-- A transfer of 512 bytes that one completion answers, without a pause on the RC interface. -/
def oneCplCycle (n : ℕ) : RcCycle where
  beat :=
    { starts := if n = 1 then [(0, ⟨.h2cData, 128, 512⟩)] else []
      other := fun _ => 0
      ordered := by split_ifs <;> simp }
  tvalid := decide (1 ≤ n ∧ n ≤ 9)
  tready := true
  txRdLength := 512
  txRdStart := n == 0

/-- The interrupt comes behind the second of its nine beats. -/
theorem rx_irq_early : FitsRun oneCplCycle ∧ ¬IrqOk oneCplCycle := by
  constructor
  · intro n ha
    by_cases hn : n = 1
    · subst hn
      refine ⟨?_, by simp, trivial⟩
      decide
    · simp [RcBeat.Fits, RcBeat.FitsFrom, oneCplCycle, hn]
  · intro h
    obtain ⟨n₀, hwork, hmoved⟩ := h 2 (by decide)
    obtain rfl : n₀ = 0 := by
      have hlt := hwork.lt
      have hidle := hwork.idle
      interval_cases n₀
      · rfl
      · revert hidle
        decide
    revert hmoved
    decide

end RcIrq

end FpgaPcie
