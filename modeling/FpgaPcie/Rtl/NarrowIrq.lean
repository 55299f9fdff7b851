import FpgaPcie.Rtl.RxRdIrqCount
import FpgaPcie.Rtl.TxWrIrq

/-!
# The done counters on a narrow bus

The branches of `dma_tx_wr_irq` and `dma_rx_rd_irq` for 64, 128 and 256 bits. None of them counts payload
bytes: the RQ side adds the configuration code for each TLP, the RC side counts beats or DWs.
-/

namespace FpgaPcie

inductive NarrowWidth
  | w64 | w128 | w256
  deriving DecidableEq

/-- The DWs of a beat. -/
def NarrowWidth.lanes : NarrowWidth → ℕ
  | w64 => 2
  | w128 => 4
  | w256 => 8

/-- A TLP with the DWs of its payload, and those of all its DWs that are still to come. The payload
comes last. -/
structure NarrowTlp where
  payload : ℕ
  toCome : ℕ

namespace NarrowTlp

variable (o : NarrowTlp) (lanes : ℕ)

/-- The payload DWs in the next lanes. -/
def moved : ℕ := min o.toCome o.payload - min (o.toCome - lanes) o.payload

def next : NarrowTlp := ⟨o.payload, o.toCome - lanes⟩

end NarrowTlp

/-! ### RQ -/

/-- What the RQ interface and the register file do in one cycle. `start` is the payload of a TLP that
starts in the beat, with a descriptor of four DWs. -/
structure NarrowRqCycle where
  start : Option ℕ
  tvalid : Bool
  tready : Bool
  txWrLength : BitVec 32
  txWrStart : Bool

namespace NarrowRq

variable (w : NarrowWidth) (cfgMaxPayload : BitVec 3) (env : ℕ → NarrowRqCycle)

def accepted (n : ℕ) : Bool := (env n).tready && (env n).tvalid

/-- The TLP of the beat. -/
def front (n : ℕ) (carry : NarrowTlp) : NarrowTlp := (env n).start.elim carry fun p => ⟨p, p + 4⟩

/-- The open TLP. -/
def carry : ℕ → NarrowTlp
  | 0 => ⟨0, 0⟩
  | n + 1 => if accepted env n then (front env n (carry n)).next w.lanes else carry n

/-- A TLP starts behind the last one. -/
def FitsRun : Prop :=
  ∀ n, accepted env n = true → ((env n).start.isSome = true ↔ (carry w env n).toCome = 0)

/-- `m_axis_rq_tlast` -/
def tlast (n : ℕ) : Bool := decide ((front env n (carry w env n)).toCome ≤ w.lanes)

/-- TLPs that end in a cycle. -/
def ends (n : ℕ) : ℕ := (accepted env n && tlast w env n).toNat

/-- Payload bytes of a cycle. -/
def payload (n : ℕ) : ℕ := if accepted env n then 4 * (front env n (carry w env n)).moved w.lanes else 0

def inputs (n : ℕ) : DoneCycle := ⟨(env n).txWrStart, (env n).txWrLength.toNat, payload w env n⟩

/-- The non-512 branch adds the code behind each TLP. -/
def cycle (n : ℕ) : TxIrqCycle where
  txWrStart := (env n).txWrStart
  txWrLength := (env n).txWrLength
  adds := if accepted env n && tlast w env n then cfgMaxPayload.setWidth 32 else 0
  bytes := payload w env n

open Arrival (Comes First upTo)
open DoneTransfer (Taken)
open TxCount (StartOk PulseOk)

/-- The number of TLPs with which the code, added up in 32 bits, reaches the length. -/
def LastTlp (length : BitVec 32) (m : ℕ) : Prop := IsLeast {m | length.toNat ≤ cfgMaxPayload.toNat * m % 2 ^ 32} m

/-- Unless the sum overflows, it is the length divided by the code, rounded up. -/
lemma lastTlp_ceil {length : BitVec 32} (hcode : 0 < cfgMaxPayload.toNat)
    (hfits : length.toNat + cfgMaxPayload.toNat ≤ 2 ^ 32) :
    LastTlp cfgMaxPayload length ((length.toNat + cfgMaxPayload.toNat - 1) / cfgMaxPayload.toNat) := by
  unfold LastTlp
  generalize length.toNat = l at hfits ⊢
  generalize cfgMaxPayload.toNat = c at hcode hfits ⊢
  have hdiv := Nat.div_add_mod (l + c - 1) c
  have hmod := Nat.mod_lt (l + c - 1) hcode
  constructor
  · show l ≤ c * ((l + c - 1) / c) % 2 ^ 32
    rw [Nat.mod_eq_of_lt (by omega)]
    omega
  · intro m hm
    have hle : l ≤ c * m := (show l ≤ c * m % 2 ^ 32 from hm).trans (Nat.mod_le _ _)
    rw [← Nat.lt_succ_iff, Nat.div_lt_iff_lt_mul hcode]
    rw [Nat.mul_comm] at hle
    rw [Nat.succ_mul]
    omega

/-- The last payload byte of a transfer comes in the beat that ends its last TLP by the code. -/
def InTime (n₀ : ℕ) : Prop := 0 < (env n₀).txWrLength.toNat →
  ∀ n, Comes (payload w env) (n₀ + 1) (env n₀).txWrLength.toNat n ↔
    ∃ m, LastTlp cfgMaxPayload (env n₀).txWrLength m ∧ Comes (ends w env) (n₀ + 1) m n

lemma adds_eq (n : ℕ) : (cycle w cfgMaxPayload env n).adds.toNat = cfgMaxPayload.toNat * ends w env n := by
  unfold cycle ends
  dsimp only
  cases accepted env n && tlast w env n with
  | false => simp
  | true =>
    have hlt := cfgMaxPayload.isLt
    simp only [if_true, BitVec.toNat_setWidth, Bool.toNat_true, Nat.mul_one]
    omega

/-- Every start is taken and the interrupt is right exactly when no start comes in the cycle of an interrupt,
and each transfer ends with the TLP that its length and the code say. -/
theorem tx_irq_iff : StartOk (cycle w cfgMaxPayload env) ∧ PulseOk (cycle w cfgMaxPayload env) ↔
    (∀ n, (DoneTransfer.run TxCount.complete (inputs w env) n).done = true →
      (DoneTransfer.run TxCount.complete (inputs w env) n).rises (inputs w env n) = false) ∧
    ∀ n₀, Taken TxCount.complete (inputs w env) n₀ → InTime w cfgMaxPayload env n₀ := by
  have hpulse : PulseOk (cycle w cfgMaxPayload env) ↔
      ∀ n₀, Taken TxCount.complete (inputs w env) n₀ → InTime w cfgMaxPayload env n₀ := by
    rw [TxCount.pulseOk_iff_first]
    refine forall_congr' fun n₀ => imp_congr_right fun _ => ?_
    simp only [adds_eq, Arrival.upTo_mul]
    rcases Nat.eq_zero_or_pos (env n₀).txWrLength.toNat with hzero | hpos
    · -- a length of zero is reached at once
      simp [InTime, cycle, hzero]
    · have hlow : ¬(env n₀).txWrLength.toNat ≤ cfgMaxPayload.toNat * 0 % 2 ^ 32 := by simpa using hpos.ne'
      have hone : ∀ n, ends w env n ≤ 1 := fun n => Bool.toNat_le _
      have hlast := fun n => Arrival.first_count (a := n₀ + 1) (n := n)
        (g := fun m => (env n₀).txWrLength.toNat ≤ cfgMaxPayload.toNat * m % 2 ^ 32) hone hlow
      have hbyte := fun n => Arrival.first_upTo (f := payload w env) (a := n₀ + 1) (n := n) hpos
      rw [InTime, forall_prop_of_true hpos]
      refine forall_congr' fun n => ?_
      exact (iff_congr (hlast n) (hbyte n)).trans Iff.comm
  rw [← hpulse]
  exact and_congr_left TxCount.startOk_iff

end NarrowRq

/-! ### RC -/

/-- What the RC interface and the register file do in one cycle: the payload of the completion that
starts in lane 0 and of the one that starts in lane 4, with headers of three DWs. `otherDw` is what the
header lanes show without a header, and `byteEn` what the 128-bit branch reads for start bits. -/
structure NarrowRcCycle where
  first : Option ℕ
  second : Option ℕ
  otherDw : Fin 2 → ℕ
  byteEn : Fin 2 → Bool
  tvalid : Bool
  tready : Bool
  txRdLength : BitVec 32
  txRdStart : Bool

namespace NarrowRcCycle

variable (e : NarrowRcCycle) (w : NarrowWidth)

def accepted : Bool := e.tready && e.tvalid

/-- `s_axis_rc_tuser[BYTE_EN_WIDTH]`: start bits on 256 bits, byte enables on 128 bits. -/
def isRcSof1 : Bool :=
  match w with
  | .w256 => e.first.isSome || e.second.isSome
  | _ => e.byteEn ⟨0, Nat.two_pos⟩

def isRcSof2 : Bool :=
  match w with
  | .w256 => e.first.isSome && e.second.isSome
  | _ => e.byteEn ⟨1, Nat.one_lt_two⟩

def dwordCount : ℕ := e.first.getD (e.otherDw ⟨0, Nat.two_pos⟩) % 2 ^ 10

def dwordStraddle : ℕ := e.second.getD (e.otherDw ⟨1, Nat.one_lt_two⟩) % 2 ^ 10

/-- What the branch for the width adds. -/
def adds : Option ℕ :=
  if e.accepted then
    match w with
    | .w64 => some 1
    | _ =>
      if e.isRcSof1 w && e.isRcSof2 w then some (e.dwordCount + e.dwordStraddle)
      else if e.isRcSof1 w then some e.dwordCount
      else none
  else none

/-- The DW counts in the header lanes of a beat whose first start bit is set. -/
def headerDws : ℕ :=
  if e.accepted && e.isRcSof1 w then e.dwordCount + if e.isRcSof2 w then e.dwordStraddle else 0 else 0

/-- The completion in the first lanes. -/
def front (carry : NarrowTlp) : NarrowTlp := e.first.elim carry fun p => ⟨p, p + 3⟩

def payload (carry : NarrowTlp) : ℕ :=
  (e.front carry).moved w.lanes + e.second.elim 0 fun p => (⟨p, p + 3⟩ : NarrowTlp).moved 4

def next (carry : NarrowTlp) : NarrowTlp :=
  e.second.elim ((e.front carry).next w.lanes) fun p => (⟨p, p + 3⟩ : NarrowTlp).next 4

end NarrowRcCycle

namespace NarrowRc

variable (w : NarrowWidth) (env : ℕ → NarrowRcCycle)

def carry : ℕ → NarrowTlp
  | 0 => ⟨0, 0⟩
  | n + 1 => if (env n).accepted then (env n).next w (carry n) else carry n

/-- A completion starts behind the last one, and in lane 4 of a 256-bit beat only behind one that ends
in front of it. -/
def FitsRun : Prop :=
  ∀ n, (env n).accepted = true → ((env n).first.isSome = true ↔ (carry w env n).toCome = 0) ∧
    ((env n).second.isSome = true → w = .w256 ∧ ((env n).front (carry w env n)).toCome ≤ 4)

/-- Payload bytes of a cycle. -/
def payload (n : ℕ) : ℕ := if (env n).accepted then 4 * (env n).payload w (carry w env n) else 0

def beats (n : ℕ) : ℕ := (env n).accepted.toNat

def inputs (n : ℕ) : DoneCycle := ⟨(env n).txRdStart, (env n).txRdLength.toNat, payload w env n⟩

def cycle (n : ℕ) : RxIrqCycle where
  txRdStart := (env n).txRdStart
  txRdLength := (env n).txRdLength.toNat
  adds := (env n).adds w
  bytes := payload w env n

open Arrival (Comes First upTo)
open DoneTransfer (Taken)
open RxCount (StartOk PulseOk)

/-- The length of a transfer. Zero counts as one. -/
def goal (n₀ : ℕ) : ℕ := max 1 (env n₀).txRdLength.toNat

/-- On 64 bits, the `k`-th payload byte of a transfer of `k` bytes comes in its `k`-th beat. On 128 and 256
bits it comes in the beat with which the DW counts of the headers, in 32 bits, reach `k`. -/
def InTime (n₀ : ℕ) : Prop := ∀ n, Comes (payload w env) (n₀ + 1) (goal env n₀) n ↔
  match w with
  | .w64 => Comes (beats env) (n₀ + 1) (goal env n₀) n
  | _ => First (n₀ + 1)
      (fun n => goal env n₀ ≤ upTo (fun n => (env n).headerDws w) (n₀ + 1) (n + 1) % 2 ^ 32) n

lemma adds_w64 (n : ℕ) : ((env n).adds .w64).getD 0 = beats env n := by
  unfold NarrowRcCycle.adds beats
  cases (env n).accepted <;> rfl

lemma adds_wide {w : NarrowWidth} (hw : w ≠ .w64) (n : ℕ) : ((env n).adds w).getD 0 = (env n).headerDws w := by
  unfold NarrowRcCycle.adds NarrowRcCycle.headerDws
  cases w with
  | w64 => exact absurd rfl hw
  | w128 => cases (env n).accepted <;> cases (env n).isRcSof1 .w128 <;> cases (env n).isRcSof2 .w128 <;> rfl
  | w256 => cases (env n).accepted <;> cases (env n).isRcSof1 .w256 <;> cases (env n).isRcSof2 .w256 <;> rfl

lemma goal_pos (n₀ : ℕ) : 0 < goal env n₀ := Nat.lt_of_lt_of_le Nat.one_pos (le_max_left _ _)

/-- In 32 bits, beats reach the length when there are that many. -/
lemma first_beats (n₀ n : ℕ) :
    First (n₀ + 1) (fun n => goal env n₀ ≤ upTo (beats env) (n₀ + 1) (n + 1) % 2 ^ 32) n ↔
      Comes (beats env) (n₀ + 1) (goal env n₀) n := by
  have hpos := goal_pos env n₀
  have hlt : goal env n₀ < 2 ^ 32 := max_lt (by decide) (env n₀).txRdLength.isLt
  have hlow : ¬goal env n₀ ≤ 0 % 2 ^ 32 := by simpa using hpos.ne'
  have hcount := Arrival.first_count (f := beats env) (a := n₀ + 1) (n := n) (g := fun m => goal env n₀ ≤ m % 2 ^ 32)
    (fun n => Bool.toNat_le _) hlow
  have hleast : IsLeast {m | goal env n₀ ≤ m % 2 ^ 32} (goal env n₀) :=
    ⟨(Nat.mod_eq_of_lt hlt).ge, fun m hm => (show goal env n₀ ≤ m % 2 ^ 32 from hm).trans (Nat.mod_le _ _)⟩
  rw [hcount]
  constructor
  · rintro ⟨m, hm, hcomes⟩
    rwa [hm.unique hleast] at hcomes
  · exact fun hcomes => ⟨_, hleast, hcomes⟩

/-- Every start is taken and the interrupt is right exactly when no start comes in the cycle of an interrupt,
and the last byte of each transfer comes in the beat that its length says. -/
theorem rx_irq_iff : StartOk (cycle w env) ∧ PulseOk (cycle w env) ↔
    (∀ n, (DoneTransfer.run RxCount.complete (inputs w env) n).done = true →
      (DoneTransfer.run RxCount.complete (inputs w env) n).rises (inputs w env n) = false) ∧
    ∀ n₀, Taken RxCount.complete (inputs w env) n₀ → InTime w env n₀ := by
  have hpulse : PulseOk (cycle w env) ↔
      ∀ n₀, Taken RxCount.complete (inputs w env) n₀ → InTime w env n₀ := by
    rw [RxCount.pulseOk_iff_first]
    refine forall_congr' fun n₀ => imp_congr_right fun _ => ?_
    have hpos := goal_pos env n₀
    have hbyte := fun n => Arrival.first_upTo (f := payload w env) (a := n₀ + 1) (n := n) hpos
    rw [Arrival.first_succ_iff (by simp) (by simp), InTime]
    refine forall_congr' fun n => ?_
    refine Iff.trans ?_ Iff.comm
    refine iff_congr ?_ (hbyte n)
    cases w with
    | w64 =>
      simp only [cycle, adds_w64]
      exact first_beats env n₀ n
    | w128 =>
      simp only [cycle, adds_wide env (w := .w128) nofun]
      exact Iff.rfl
    | w256 =>
      simp only [cycle, adds_wide env (w := .w256) nofun]
      exact Iff.rfl
  rw [← hpulse]
  exact and_congr_left RxCount.startOk_iff

end NarrowRc

/-- On a narrow bus the two interrupts are right exactly when no start comes in the cycle of an interrupt and
the last payload byte of each transfer comes in the beat that the code, the beats or the headers say. -/
theorem narrow_irq_iff (w : NarrowWidth) (cfgMaxPayload : BitVec 3) (rq : ℕ → NarrowRqCycle)
    (rc : ℕ → NarrowRcCycle) :
    (TxCount.StartOk (NarrowRq.cycle w cfgMaxPayload rq) ∧ TxCount.PulseOk (NarrowRq.cycle w cfgMaxPayload rq)) ∧
        (RxCount.StartOk (NarrowRc.cycle w rc) ∧ RxCount.PulseOk (NarrowRc.cycle w rc)) ↔
      ((∀ n, (DoneTransfer.run TxCount.complete (NarrowRq.inputs w rq) n).done = true →
          (DoneTransfer.run TxCount.complete (NarrowRq.inputs w rq) n).rises (NarrowRq.inputs w rq n) = false) ∧
        ∀ n₀, DoneTransfer.Taken TxCount.complete (NarrowRq.inputs w rq) n₀ →
          NarrowRq.InTime w cfgMaxPayload rq n₀) ∧
      (∀ n, (DoneTransfer.run RxCount.complete (NarrowRc.inputs w rc) n).done = true →
          (DoneTransfer.run RxCount.complete (NarrowRc.inputs w rc) n).rises (NarrowRc.inputs w rc n) = false) ∧
        ∀ n₀, DoneTransfer.Taken RxCount.complete (NarrowRc.inputs w rc) n₀ → NarrowRc.InTime w rc n₀ :=
  and_congr (NarrowRq.tx_irq_iff w cfgMaxPayload rq) (NarrowRc.rx_irq_iff w rc)

/-- A transfer in one write of one beat with 16 bytes. -/
def oneWrite (length : BitVec 32) (n : ℕ) : NarrowRqCycle := ⟨some 4, n == 1, true, length, n == 0⟩

/-- One that one completion of one beat with 16 bytes answers. -/
def oneCompletion (length : BitVec 32) (n : ℕ) : NarrowRcCycle :=
  ⟨some 4, none, fun _ => 0, fun _ => false, n == 1, true, length, n == 0⟩

/-- On 256 bits the code 4 (2048 bytes) is that of a transfer of four bytes. -/
theorem narrow_irqs_in_time :
    (TxCount.StartOk (NarrowRq.cycle .w256 4 (oneWrite 4)) ∧ TxCount.PulseOk (NarrowRq.cycle .w256 4 (oneWrite 4))) ∧
      RxCount.StartOk (NarrowRc.cycle .w256 (oneCompletion 4)) ∧
        RxCount.PulseOk (NarrowRc.cycle .w256 (oneCompletion 4)) := by
  -- the payload comes in cycle 1, and so do the end of the TLP and the header
  have hone : ∀ (f : ℕ → ℕ) (k n : ℕ), 0 < k → k ≤ Arrival.upTo f 1 2 → (Arrival.Comes f 1 k n ↔ n = 1) := by
    intro f k n hpos hk
    constructor
    · intro hcomes
      have hle := hcomes.le
      by_contra hne
      exact absurd (hk.trans (Arrival.upTo_mono (show 2 ≤ n by omega))) (not_le.mpr hcomes.1)
    · rintro rfl
      exact ⟨by rwa [Arrival.upTo_self], hk⟩
  have hlast : NarrowRq.LastTlp 4 4 1 := NarrowRq.lastTlp_ceil 4 (by decide) (by decide)
  refine (narrow_irq_iff .w256 4 (oneWrite 4) (oneCompletion 4)).mpr
    ⟨⟨fun n hdone => ?_, fun n₀ ht => ?_⟩, fun n hdone => ?_, fun n₀ ht => ?_⟩
  · cases n with
    | zero => cases hdone
    | succ n => rfl
  · obtain rfl : n₀ = 0 := by simpa [NarrowRq.inputs, oneWrite] using ht.start
    intro _ n
    rw [hone _ _ n (by decide) (by decide)]
    constructor
    · exact fun hn => ⟨1, hlast, (hone _ 1 n Nat.one_pos (by decide)).mpr hn⟩
    · rintro ⟨m, hm, hcomes⟩
      obtain rfl := hm.unique hlast
      exact (hone _ 1 n Nat.one_pos (by decide)).mp hcomes
  · cases n with
    | zero => cases hdone
    | succ n => rfl
  · obtain rfl : n₀ = 0 := by simpa [NarrowRc.inputs, oneCompletion] using ht.start
    intro n
    rw [hone _ _ n (by decide) (by decide)]
    constructor
    · rintro rfl
      exact ⟨le_rfl, Arrival.notYet_self, by decide⟩
    · intro hfirst
      have hle := hfirst.le
      by_contra hne
      exact hfirst.notYet 1 le_rfl (by omega) (by decide)

/-- On 256 bits the code 2 (512 bytes) counts as two bytes, and four DWs as four. -/
theorem narrow_irqs_missed :
    NarrowRq.FitsRun .w256 (oneWrite 16) ∧ NarrowRc.FitsRun .w256 (oneCompletion 16) ∧
      ¬TxCount.PulseOk (NarrowRq.cycle .w256 2 (oneWrite 16)) ∧
        ¬RxCount.PulseOk (NarrowRc.cycle .w256 (oneCompletion 16)) := by
  refine ⟨fun n ha => ?_, fun n ha => ?_, fun h => ?_, fun h => ?_⟩
  · obtain rfl : n = 1 := by simpa [NarrowRq.accepted, oneWrite] using ha
    exact ⟨fun _ => rfl, fun _ => rfl⟩
  · obtain rfl : n = 1 := by simpa [NarrowRcCycle.accepted, oneCompletion] using ha
    exact ⟨⟨fun _ => rfl, fun _ => rfl⟩, nofun⟩
  · exact absurd (h 1) (by decide)
  · exact absurd (h 2) (by decide)

end FpgaPcie
