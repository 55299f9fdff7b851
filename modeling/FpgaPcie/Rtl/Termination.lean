import FpgaPcie.Lib.Progress
import FpgaPcie.Rtl.DmaRdReassembly
import FpgaPcie.Rtl.DmaWrPacketise

/-!
# Leaving the request state

Both request FSMs count accepted transfers up, modulo `2 ^ 32`, and leave `REQ_STATE_START` when the count
meets its target. The write engine compares in every cycle, the read engine only behind a request that
is accepted: a target of zero is met at once by the one, and not before a wrap by the other.
-/

namespace FpgaPcie

/-! ### The read engine -/

namespace RdState

variable {c : RdConfig} (s₀ : RdState c) (i : ℕ → RdInput c)

/-- An MRd is accepted in cycle `t`. -/
def accepts (t : ℕ) : Bool := (rdRun s₀ i t).req.accept (i t)

/-- The MRds accepted from cycle 1 on. -/
def acceptedMrds : ℕ → ℕ
  | 0 => 0
  | 1 => 0
  | t + 2 => acceptedMrds (t + 1) + (s₀.accepts i (t + 1)).toNat

/-- The request FSM has been at work from cycle 1 on. -/
def Busy (t : ℕ) : Prop :=
  1 ≤ t ∧ ∀ v, 1 ≤ v → v ≤ t → (rdRun s₀ i v).req.reqStateReg = .start

/-- While the FSM is at work, the port accepts another MRd some time later. -/
def Granted : Prop := ∀ t, s₀.Busy i t → ∃ u, t ≤ u ∧ (s₀.accepts i u = true ∨ ¬s₀.Busy i u)

/-- An FSM that offers MRds again and again has one of them accepted. -/
def PortFair : Prop :=
  ∀ t, (∀ v, t ≤ v → s₀.Busy i v) →
    (∀ v, t ≤ v → ∃ u, v ≤ u ∧ (rdRun s₀ i u).req.txRdReqTlpValidReg = true) →
    ∃ u, t ≤ u ∧ s₀.accepts i u = true

/-- While the FSM is at work, `op_tag_fifo` has room for another tag some time later. -/
def TagsFree : Prop :=
  ∀ t, s₀.Busy i t → ∃ u, t ≤ u ∧
    ((rdRun s₀ i u).tag.opTagFifo.words.length < 2 ^ c.pcieTagWidth ∨ ¬s₀.Busy i u)

/-- The FSM returns to idle, behind no more MRds than the length needs. -/
def Returns (length : ℕ) : Prop :=
  ∃ u, s₀.Busy i u ∧ (rdRun s₀ i (u + 1)).req.reqStateReg = .idle ∧
    s₀.acceptedMrds i (u + 1) ≤ reqCount c length

/-- Every MRd is accepted when it is offered, and there are no more of them than free tags. -/
structure EnoughTags : Prop where
  ready : ∀ t, (rdRun s₀ i t).req.txRdReqTlpValidReg = true → (i t).txRdReqTlpReady = true
  free : s₀.tag.opTagFifo.words.length + s₀.tag.opTagFifoWe.toNat + reqCount c (i 0).descTxRdReqLength ≤
    2 ^ c.pcieTagWidth

/-- On the 512-bit bus with requests of 512 bytes every MRd is accepted when it is offered and answered, and
the stream is taken again and again. -/
structure Answered (mem : HostMem) : Prop where
  wide : c.Wide512
  quiet : s₀.Quiet
  address : (i 0).descTxRdReqAddress % 4 = 0 ∧ (i 0).descTxRdReqAddress < 2 ^ 64
  once : ∀ t, 0 < t → (i t).descTxRdReqStart = false
  legal : ∀ t, ((RdSystem.fresh s₀).run i t).Legal mem (i t)
  fair : (RdSystem.fresh s₀).Fair i

variable {s₀ i}

lemma Busy.succ {t : ℕ} (h : s₀.Busy i t) (hs : (rdRun s₀ i (t + 1)).req.reqStateReg = .start) :
    s₀.Busy i (t + 1) := by
  refine ⟨by omega, fun v hv hle => ?_⟩
  rcases Nat.lt_or_ge v (t + 1) with hlt | hge
  · exact h.2 v hv (by omega)
  · obtain rfl : v = t + 1 := by omega
    exact hs

lemma acceptedMrds_succ {t : ℕ} (ht : 1 ≤ t) :
    s₀.acceptedMrds i (t + 1) = s₀.acceptedMrds i t + (s₀.accepts i t).toNat := by
  obtain ⟨t, rfl⟩ : ∃ v, t = v + 1 := ⟨t - 1, by omega⟩
  rfl

lemma busy_step {t : ℕ} (hs : (rdRun s₀ i t).req.reqStateReg = .start) :
    (rdRun s₀ i (t + 1)).req.trCycleReg = (rdRun s₀ i t).req.trCycleReg ∧
    (rdRun s₀ i (t + 1)).req.opCycleReg = (if s₀.accepts i t = true then
      ((rdRun s₀ i t).req.opCycleReg + 1) % 2 ^ 32 else (rdRun s₀ i t).req.opCycleReg) ∧
    ((rdRun s₀ i (t + 1)).req.reqStateReg = .idle ↔ s₀.accepts i t = true ∧
      ((rdRun s₀ i t).req.opCycleReg + 1) % 2 ^ 32 = (rdRun s₀ i t).req.trCycleReg) := by
  rw [rdRun, rdStep, accepts]
  dsimp only
  cases ha : (rdRun s₀ i t).req.accept (i t) with
  | true =>
    rw [reqNext_accept hs ha]
    simp
  | false =>
    cases (rdRun s₀ i t).tag.opTagFifoWe with
    | true =>
      rw [reqNext_allocate hs ha]
      simp [hs]
    | false =>
      rw [reqNext_wait hs ha]
      simp [hs]

/-- While the FSM is at work, `op_cycle_reg` counts the MRds. -/
lemma busy_counts (htake : s₀.req.take (i 0) = true) {t : ℕ} (h : s₀.Busy i t) :
    (rdRun s₀ i t).req.trCycleReg = trCycleNext c (i 0).descTxRdReqLength ∧
      (rdRun s₀ i t).req.opCycleReg = s₀.acceptedMrds i t % 2 ^ 32 := by
  obtain ⟨hpos, hbusy⟩ := h
  induction t, hpos using Nat.le_induction with
  | base => simp [rdRun, rdStep, reqNext_take htake, acceptedMrds]
  | succ t ht ih =>
    obtain ⟨htr, hop⟩ := ih fun v hv hle => hbusy v hv (by omega)
    obtain ⟨htr', hop', -⟩ := busy_step (hbusy t ht (by omega))
    rw [htr', hop', acceptedMrds_succ ht, htr, hop]
    cases s₀.accepts i t <;> simp

lemma busy_one (htake : s₀.req.take (i 0) = true) : s₀.Busy i 1 := by
  refine ⟨le_rfl, fun v hv hle => ?_⟩
  obtain rfl : v = 1 := by omega
  simp [rdRun, rdStep, reqNext_take htake]

lemma start_of_ne {r : ReqReg} (h : ¬r.reqStateReg = .idle) : r.reqStateReg = .start := by
  cases hs : r.reqStateReg with
  | idle => exact absurd hs h
  | start => rfl

/-- With a length the request FSM returns behind exactly the MRds that the length needs. -/
theorem returns_of_pos (htake : s₀.req.take (i 0) = true)
    (hlen : (i 0).descTxRdReqLength < 2 ^ 32) (hpos : 0 < (i 0).descTxRdReqLength)
    (hgranted : s₀.Granted i) : s₀.Returns i (i 0).descTxRdReqLength := by
  have hn := reqCount_pos (c := c) hpos
  have hn32 := reqCount_lt (c := c) hlen
  have hidle : ∀ t, s₀.Busy i t → s₀.acceptedMrds i t < reqCount c (i 0).descTxRdReqLength →
      ((rdRun s₀ i (t + 1)).req.reqStateReg = .idle ↔ s₀.accepts i t = true ∧
        s₀.acceptedMrds i t + 1 = reqCount c (i 0).descTxRdReqLength) := by
    intro t hbusy hlt
    obtain ⟨htr, hop⟩ := busy_counts htake hbusy
    rw [(busy_step (hbusy.2 t hbusy.1 le_rfl)).2.2, htr, hop, trCycleNext_eq hlen,
      Nat.mod_eq_of_lt (hlt.trans hn32), Nat.mod_eq_of_lt (by omega)]
  obtain ⟨u, -, hbusy, hacc, hcount⟩ := Progress.finishes (s₀.Busy i)
    (fun t => s₀.accepts i t = true) (s₀.acceptedMrds i)
    (reqCount c (i 0).descTxRdReqLength) (fun t hbusy hno => by
      have hs := busy_step (hbusy.2 t hbusy.1 le_rfl)
      refine ⟨hbusy.succ (start_of_ne fun h => hno (hs.2.2.mp h).1), ?_⟩
      rw [acceptedMrds_succ hbusy.1, Bool.eq_false_of_not_eq_true hno]
      rfl)
    (fun t hbusy hyes => by
      rw [acceptedMrds_succ hbusy.1, hyes]
      refine ⟨rfl, fun hlt => hbusy.succ (start_of_ne fun h => ?_)⟩
      have hlast := ((hidle t hbusy (by omega)).mp h).2
      omega)
    hgranted (busy_one htake) hn
  refine ⟨u, hbusy, (hidle u hbusy (by omega)).mpr ⟨hacc, hcount⟩, ?_⟩
  rw [acceptedMrds_succ hbusy.1, hacc, Bool.toNat_true, hcount]

lemma offers_of_free {u : ℕ} (hs : (rdRun s₀ i u).req.reqStateReg = .start)
    (hs' : (rdRun s₀ i (u + 1)).req.reqStateReg = .start) (ha : s₀.accepts i u = false)
    (ha' : s₀.accepts i (u + 1) = false)
    (hfree : (rdRun s₀ i u).tag.opTagFifo.words.length < 2 ^ c.pcieTagWidth) :
    (rdRun s₀ i (u + 1)).req.txRdReqTlpValidReg = true ∨
      (rdRun s₀ i (u + 2)).req.txRdReqTlpValidReg = true := by
  rw [accepts] at ha ha'
  cases hwe : (rdRun s₀ i u).tag.opTagFifoWe with
  | true =>
    left
    rw [rdRun, rdStep, hwe]
    simp [reqNext_allocate hs ha]
  | false =>
    right
    have hwe' : (rdRun s₀ i (u + 1)).tag.opTagFifoWe = true := by
      rw [rdRun, rdStep, hwe]
      simp [tagStep, hwe, reqNext_wait hs ha, hfree]
    rw [rdRun, rdStep, hwe']
    simp [reqNext_allocate hs' ha']

theorem granted_of_fair (hport : s₀.PortFair i) (htags : s₀.TagsFree i) : s₀.Granted i := by
  intro t hbusy
  by_contra hnone
  push Not at hnone
  have hwork : ∀ v, t ≤ v → s₀.Busy i v := fun v hv => (hnone v hv).2
  have hstart : ∀ v, t ≤ v → (rdRun s₀ i v).req.reqStateReg = .start := fun v hv =>
    (hwork v hv).2 v (hwork v hv).1 le_rfl
  have hno : ∀ v, t ≤ v → s₀.accepts i v = false := fun v hv =>
    Bool.eq_false_of_not_eq_true (hnone v hv).1
  obtain ⟨u, hu, hacc⟩ := hport t hwork fun v hv => by
    obtain ⟨u, hu, hfree⟩ := htags v (hwork v hv)
    have hfree := hfree.resolve_right (not_not_intro (hwork u (by omega)))
    rcases offers_of_free (hstart u (by omega)) (hstart (u + 1) (by omega)) (hno u (by omega))
      (hno (u + 1) (by omega)) hfree with h | h
    · exact ⟨u + 1, by omega, h⟩
    · exact ⟨u + 2, by omega, h⟩
  exact absurd hacc (by rw [hno u hu]; exact Bool.false_ne_true)

lemma tagsFree_of_returns {length : ℕ} (h : s₀.Returns i length) : s₀.TagsFree i := by
  obtain ⟨u, hbusy, hidle, -⟩ := h
  have hgone : ∀ v, u + 1 ≤ v → ¬s₀.Busy i v := by
    intro v hv hb
    have hs := hb.2 (u + 1) (by omega) hv
    rw [hidle] at hs
    cases hs
  intro t ht
  exact ⟨max t (u + 1), le_max_left _ _, .inr (hgone _ (le_max_right _ _))⟩

/-- As long as the FSM is at work, an MRd is still to be accepted. -/
lemma Busy.acceptedMrds_lt (htake : s₀.req.take (i 0) = true) (hlen : (i 0).descTxRdReqLength < 2 ^ 32)
    (hpos : 0 < (i 0).descTxRdReqLength) {t : ℕ} (h : s₀.Busy i t) :
    s₀.acceptedMrds i t < reqCount c (i 0).descTxRdReqLength := by
  obtain ⟨ht, hbusy⟩ := h
  induction t, ht using Nat.le_induction with
  | base => exact reqCount_pos hpos
  | succ t ht ih =>
    have hprev : s₀.Busy i t := ⟨ht, fun v hv hle => hbusy v hv (by omega)⟩
    have hlt := ih hprev.2
    have hn32 := reqCount_lt (c := c) hlen
    obtain ⟨htr, hop⟩ := busy_counts htake hprev
    rw [acceptedMrds_succ ht]
    cases hacc : s₀.accepts i t with
    | false => exact hlt
    | true =>
      by_contra hge
      rw [Bool.toNat_true] at hge
      have hidle := (busy_step (hbusy t ht (by omega))).2.2.mpr ⟨hacc, by
        rw [htr, hop, trCycleNext_eq hlen, Nat.mod_eq_of_lt (hlt.trans hn32), Nat.mod_eq_of_lt (by omega)]
        omega⟩
      have hstart := hbusy (t + 1) (by omega) le_rfl
      rw [hidle] at hstart
      cases hstart

/-- Each tag that is handed out belongs to an MRd that is on the port or has been accepted. -/
lemma Busy.tags_le (htake : s₀.req.take (i 0) = true) (hready : ∀ t,
    (rdRun s₀ i t).req.txRdReqTlpValidReg = true → (i t).txRdReqTlpReady = true) {t : ℕ} (h : s₀.Busy i t) :
    (rdRun s₀ i t).tag.opTagFifo.words.length ≤ s₀.tag.opTagFifo.words.length + s₀.tag.opTagFifoWe.toNat +
        s₀.acceptedMrds i t + (rdRun s₀ i t).req.txRdReqTlpValidReg.toNat ∧
      ((rdRun s₀ i t).req.txRdReqTlpValidReg = true → (rdRun s₀ i t).tag.opTagFifoWe = false) := by
  obtain ⟨ht, hbusy⟩ := h
  have hpush : ∀ u, (rdRun s₀ i (u + 1)).tag.opTagFifo.words.length ≤
      (rdRun s₀ i u).tag.opTagFifo.words.length + (rdRun s₀ i u).tag.opTagFifoWe.toNat := by
    intro u
    refine ((rdRun s₀ i u).tag.opTagFifo.clock_sublist _ _).length_le.trans ?_
    cases (rdRun s₀ i u).tag.opTagFifoWe <;> cases (rdRun s₀ i u).tag.opTagFifoRd <;> simp
  induction t, ht using Nat.le_induction with
  | base =>
    have hvalid : (rdRun s₀ i 1).req.txRdReqTlpValidReg = false := by
      simp [rdRun, rdStep, reqNext_take htake]
    rw [hvalid]
    exact ⟨hpush 0, fun h => by cases h⟩
  | succ t ht ih =>
    have hs := hbusy t ht (by omega)
    obtain ⟨hle, hwe⟩ := ih fun v hv hlt => hbusy v hv (by omega)
    have hnext := hpush t
    rw [acceptedMrds_succ ht, accepts]
    cases hv : (rdRun s₀ i t).req.txRdReqTlpValidReg with
    | true =>
      have ha : (rdRun s₀ i t).req.accept (i t) = true := by simp [ReqReg.accept, hv, hready t hv]
      have hv' : (rdRun s₀ i (t + 1)).req.txRdReqTlpValidReg = false := by
        rw [rdRun, rdStep]
        simp [reqNext_accept hs ha]
      rw [hv, Bool.toNat_true] at hle
      rw [hwe hv, Bool.toNat_false] at hnext
      rw [hv', ha, Bool.toNat_true, Bool.toNat_false]
      exact ⟨by omega, fun h => by cases h⟩
    | false =>
      have ha : (rdRun s₀ i t).req.accept (i t) = false := by simp [ReqReg.accept, hv]
      rw [hv, Bool.toNat_false] at hle
      rw [ha, Bool.toNat_false]
      cases hw : (rdRun s₀ i t).tag.opTagFifoWe with
      | true =>
        have hv' : (rdRun s₀ i (t + 1)).req.txRdReqTlpValidReg = true := by
          rw [rdRun, rdStep, hw]
          simp [reqNext_allocate hs ha]
        have hw' : (rdRun s₀ i (t + 1)).tag.opTagFifoWe = false := by
          rw [rdRun, rdStep]
          simp [tagStep, hw]
        rw [hw, Bool.toNat_true] at hnext
        rw [hv', Bool.toNat_true]
        exact ⟨by omega, fun _ => hw'⟩
      | false =>
        have hv' : (rdRun s₀ i (t + 1)).req.txRdReqTlpValidReg = false := by
          rw [rdRun, rdStep, hw]
          simp [reqNext_wait hs ha]
        rw [hw, Bool.toNat_false] at hnext
        rw [hv', Bool.toNat_false]
        exact ⟨by omega, fun h => by cases h⟩

theorem EnoughTags.tagsFree (h : s₀.EnoughTags i) (htake : s₀.req.take (i 0) = true)
    (hlen : (i 0).descTxRdReqLength < 2 ^ 32) (hpos : 0 < (i 0).descTxRdReqLength) : s₀.TagsFree i := by
  have hfree := h.free
  have hunused : ∀ u, s₀.Busy i u → (rdRun s₀ i u).req.txRdReqTlpValidReg = false →
      (rdRun s₀ i u).tag.opTagFifo.words.length < 2 ^ c.pcieTagWidth := by
    intro u hu hv
    have hlt := hu.acceptedMrds_lt htake hlen hpos
    have hle := (hu.tags_le htake h.ready).1
    rw [hv, Bool.toNat_false] at hle
    omega
  intro t ht
  cases hv : (rdRun s₀ i t).req.txRdReqTlpValidReg with
  | false => exact ⟨t, le_rfl, .inl (hunused t ht hv)⟩
  | true =>
    -- the MRd on the port is accepted now, and in the next cycle there is none
    have hs := ht.2 t ht.1 le_rfl
    have ha : (rdRun s₀ i t).req.accept (i t) = true := by simp [ReqReg.accept, hv, h.ready t hv]
    have hv' : (rdRun s₀ i (t + 1)).req.txRdReqTlpValidReg = false := by
      rw [rdRun, rdStep]
      simp [reqNext_accept hs ha]
    refine ⟨t + 1, Nat.le_succ t, ?_⟩
    by_cases hbusy : s₀.Busy i (t + 1)
    · exact .inl (hunused (t + 1) hbusy hv')
    · exact .inr hbusy

lemma run_engine (s₀ : RdState c) (i : ℕ → RdInput c) (t : ℕ) :
    ((RdSystem.fresh s₀).run i t).engine = rdRun s₀ i t := by
  induction t with
  | zero => rfl
  | succ t ih =>
    rw [RdSystem.run, RdSystem.step, rdRun, ih]

theorem Answered.tagsFree {mem : HostMem} (h : s₀.Answered i mem) (htake : s₀.req.take (i 0) = true)
    (hlen : (i 0).descTxRdReqLength < 2 ^ 32) (hpos : 0 < (i 0).descTxRdReqLength) : s₀.TagsFree i := by
  have hstart : StartsOnce i (i 0).descTxRdReqAddress (i 0).descTxRdReqLength :=
    ⟨(take_iff.mp htake).2.1, rfl, rfl, h.once⟩
  have hinv := started_inv h.wide h.address.1 h.address.2 hpos hlen h.quiet hstart h.legal
  obtain ⟨t₁, ht₁⟩ := started_delivers h.wide h.address.1 h.address.2 hpos hlen h.quiet hstart h.legal h.fair
  have hidle := ((hinv t₁).quiet_of_delivered h.wide (ht₁ t₁ le_rfl)).1.req
  rw [run_engine] at hidle
  intro t ht
  refine ⟨max t (t₁ + 1), le_max_left _ _, .inr fun hb => ?_⟩
  have hs := hb.2 (t₁ + 1) (by omega) (le_max_right _ _)
  rw [hidle] at hs
  cases hs

lemma not_returns_zero : ¬s₀.Returns i 0 := by
  intro ⟨u, hbusy, hidle, hle⟩
  have hacc := ((busy_step (hbusy.2 u hbusy.1 le_rfl)).2.2.mp hidle).1
  rw [acceptedMrds_succ hbusy.1, hacc, Bool.toNat_true] at hle
  have hzero : reqCount c 0 = 0 := by
    have hm := mrrs_pos (c := c)
    rw [reqCount]
    exact Nat.div_eq_of_lt (by omega)
  omega

/-- Nor does it with a length of zero, before `2 ^ 32` MRds have been accepted. -/
theorem wraps_of_zero (htake : s₀.req.take (i 0) = true) (hzero : (i 0).descTxRdReqLength = 0) {u : ℕ}
    (hbusy : s₀.Busy i u) (hidle : (rdRun s₀ i (u + 1)).req.reqStateReg = .idle) :
    2 ^ 32 ∣ s₀.acceptedMrds i (u + 1) ∧ 0 < s₀.acceptedMrds i (u + 1) := by
  obtain ⟨htr, hop⟩ := busy_counts htake hbusy
  obtain ⟨hacc, hwrap⟩ := (busy_step (hbusy.2 u hbusy.1 le_rfl)).2.2.mp hidle
  have htarget : trCycleNext c 0 = 0 := by simp [trCycleNext]
  rw [htr, hop, hzero, htarget, Nat.mod_add_mod] at hwrap
  rw [acceptedMrds_succ hbusy.1, hacc, Bool.toNat_true]
  exact ⟨Nat.dvd_of_mod_eq_zero hwrap, Nat.succ_pos _⟩

end RdState

/-! ### The write engine -/

namespace WrState

variable {c : WrConfig} (s₀ : WrState c) (i : ℕ → WrInput c)

/-- The states of the engine from `s₀` on. -/
def run : ℕ → WrState c
  | 0 => s₀
  | t + 1 => (run t).step (i t)

/-- A descriptor is taken. -/
def take (j : WrInput c) : Bool :=
  s₀.reg.reqStateReg == .idle && (j.descWrReqStart && !s₀.reg.descWrReqStartReg)

/-- A beat is accepted in cycle `t`. -/
def accepts (t : ℕ) : Bool := (s₀.run i t).sAxisAccept (i t)

/-- The beats accepted from cycle 1 on. -/
def acceptedBeats : ℕ → ℕ
  | 0 => 0
  | 1 => 0
  | t + 2 => acceptedBeats (t + 1) + (s₀.accepts i (t + 1)).toNat

/-- The request FSM has been at work from cycle 1 on. -/
def Busy (t : ℕ) : Prop :=
  1 ≤ t ∧ ∀ v, 1 ≤ v → v ≤ t → (s₀.run i v).reg.reqStateReg = .start

/-- While the FSM is at work, the stream moves another beat some time later. -/
def Granted : Prop := ∀ t, s₀.Busy i t → ∃ u, t ≤ u ∧ (s₀.accepts i u = true ∨ ¬s₀.Busy i u)

/-- The FSM returns to idle, behind no more beats than the length needs. -/
def Returns (length : ℕ) : Prop :=
  ∃ u, s₀.Busy i u ∧ (s₀.run i (u + 1)).reg.reqStateReg = .idle ∧
    s₀.acceptedBeats i (u + 1) ≤ wrBeats c length

variable {s₀ i}

lemma Busy.succ {t : ℕ} (h : s₀.Busy i t) (hs : ¬(s₀.run i (t + 1)).reg.reqStateReg = .idle) :
    s₀.Busy i (t + 1) := by
  refine ⟨by omega, fun v hv hle => ?_⟩
  rcases Nat.lt_or_ge v (t + 1) with hlt | hge
  · exact h.2 v hv (by omega)
  · obtain rfl : v = t + 1 := by omega
    cases hr : (s₀.run i (t + 1)).reg.reqStateReg with
    | idle => exact absurd hr hs
    | start => rfl

lemma acceptedBeats_succ {t : ℕ} (ht : 1 ≤ t) :
    s₀.acceptedBeats i (t + 1) = s₀.acceptedBeats i t + (s₀.accepts i t).toNat := by
  obtain ⟨t, rfl⟩ : ∃ v, t = v + 1 := ⟨t - 1, by omega⟩
  rfl

lemma busy_step {t : ℕ} (hs : (s₀.run i t).reg.reqStateReg = .start) :
    (s₀.run i (t + 1)).reg.cycleReg = (s₀.run i t).reg.cycleReg ∧
    (s₀.run i (t + 1)).reg.opCycleReg = (if s₀.accepts i t = true then
      ((s₀.run i t).reg.opCycleReg + 1) % 2 ^ 32 else (s₀.run i t).reg.opCycleReg) ∧
    ((s₀.run i (t + 1)).reg.reqStateReg = .idle ↔
      (s₀.run i (t + 1)).reg.opCycleReg = (s₀.run i t).reg.cycleReg) := by
  have hop : (s₀.run i t).opCycleNext (i t) = if s₀.accepts i t = true then
      ((s₀.run i t).reg.opCycleReg + 1) % 2 ^ 32 else (s₀.run i t).reg.opCycleReg := by
    rw [opCycleNext, hs, accepts]
  rw [run, step, wrNext, hs]
  refine ⟨rfl, hop, ?_⟩
  dsimp only
  split_ifs with hlast
  · exact ⟨fun _ => hlast, fun _ => rfl⟩
  · exact ⟨fun h => (by cases h), fun h => absurd h hlast⟩

/-- While the FSM is at work, `op_cycle_reg` counts the beats. -/
lemma busy_counts (htake : s₀.take (i 0) = true) {t : ℕ} (h : s₀.Busy i t) :
    (s₀.run i t).reg.cycleReg = wrCycleNext c (i 0).descWrReqLength ∧
      (s₀.run i t).reg.opCycleReg = s₀.acceptedBeats i t % 2 ^ 32 := by
  obtain ⟨hpos, hbusy⟩ := h
  simp only [take, Bool.and_eq_true, beq_iff_eq] at htake
  obtain ⟨hs, hstart, hreg⟩ := htake
  induction t, hpos using Nat.le_induction with
  | base => simp [run, step, wrNext, hs, hstart, hreg, acceptedBeats]
  | succ t ht ih =>
    obtain ⟨hcycle, hop⟩ := ih fun v hv hle => hbusy v hv (by omega)
    obtain ⟨hcycle', hop', -⟩ := busy_step (hbusy t ht (by omega))
    rw [hcycle', hop', acceptedBeats_succ ht, hcycle, hop]
    cases s₀.accepts i t <;> simp

lemma busy_one (htake : s₀.take (i 0) = true) : s₀.Busy i 1 := by
  simp only [take, Bool.and_eq_true, beq_iff_eq] at htake
  obtain ⟨hs, hstart, hreg⟩ := htake
  refine ⟨le_rfl, fun v hv hle => ?_⟩
  obtain rfl : v = 1 := by omega
  simp [run, step, wrNext, hs, hstart, hreg]

lemma not_accepts_one (htake : s₀.take (i 0) = true) : s₀.accepts i 1 = false := by
  simp only [take, Bool.and_eq_true, beq_iff_eq] at htake
  obtain ⟨hs, hstart, hreg⟩ := htake
  simp [accepts, sAxisAccept, run, step, wrNext, hs, hstart, hreg]

/-- The request FSM returns behind the beats that the length needs. -/
theorem returns (htake : s₀.take (i 0) = true) (hlen : (i 0).descWrReqLength < 2 ^ 32)
    (hgranted : s₀.Granted i) : s₀.Returns i (i 0).descWrReqLength := by
  have hn32 := wrBeats_lt (c := c) hlen
  have hidle : ∀ t, s₀.Busy i t → s₀.acceptedBeats i (t + 1) ≤ wrBeats c (i 0).descWrReqLength →
      ((s₀.run i (t + 1)).reg.reqStateReg = .idle ↔
        s₀.acceptedBeats i (t + 1) = wrBeats c (i 0).descWrReqLength) := by
    intro t hbusy hle
    obtain ⟨hcycle, hop⟩ := busy_counts htake hbusy
    obtain ⟨-, hop', hs'⟩ := busy_step (hbusy.2 t hbusy.1 le_rfl)
    have hcount : (s₀.run i (t + 1)).reg.opCycleReg = s₀.acceptedBeats i (t + 1) := by
      rw [acceptedBeats_succ hbusy.1] at hle ⊢
      rw [hop', hop]
      cases ha : s₀.accepts i t <;> simp [ha] at hle ⊢ <;> omega
    rw [hs', hcycle, hcount, wrCycleNext_eq hlen]
  rcases Nat.eq_zero_or_pos (wrBeats c (i 0).descWrReqLength) with hzero | hpos
  · -- the target is met at once
    have hone : s₀.acceptedBeats i (1 + 1) = 0 := by
      rw [acceptedBeats_succ le_rfl, not_accepts_one htake]
      rfl
    exact ⟨1, busy_one htake, (hidle 1 (busy_one htake) (by omega)).mpr (by omega), by omega⟩
  · obtain ⟨u, -, ⟨hbusy, -⟩, hacc, hcount⟩ := Progress.finishes
      (fun t => s₀.Busy i t ∧ s₀.acceptedBeats i t < wrBeats c (i 0).descWrReqLength)
      (fun t => s₀.accepts i t = true) (s₀.acceptedBeats i)
      (wrBeats c (i 0).descWrReqLength) (fun t hbusy hno => by
        have hcount : s₀.acceptedBeats i (t + 1) = s₀.acceptedBeats i t := by
          rw [acceptedBeats_succ hbusy.1.1, Bool.eq_false_of_not_eq_true hno]
          rfl
        have hleft := hbusy.2
        refine ⟨⟨hbusy.1.succ fun h => ?_, by omega⟩, hcount⟩
        have hlast := (hidle t hbusy.1 (by omega)).mp h
        omega)
      (fun t hbusy hyes => by
        have hcount : s₀.acceptedBeats i (t + 1) = s₀.acceptedBeats i t + 1 := by
          rw [acceptedBeats_succ hbusy.1.1, hyes]
          rfl
        refine ⟨hcount, fun hlt => ⟨hbusy.1.succ fun h => ?_, by omega⟩⟩
        have hlast := (hidle t hbusy.1 (by omega)).mp h
        omega)
      (fun t hbusy => by
        obtain ⟨u, hu, hyes⟩ := hgranted t hbusy.1
        exact ⟨u, hu, hyes.imp_right fun hno hb => hno hb.1⟩)
      ⟨busy_one htake, hpos⟩ hpos
    have hcount' : s₀.acceptedBeats i (u + 1) = wrBeats c (i 0).descWrReqLength := by
      rw [acceptedBeats_succ hbusy.1, hacc, Bool.toNat_true, hcount]
    exact ⟨u, hbusy, (hidle u hbusy hcount'.le).mpr hcount', hcount'.le⟩

/-- The words in the output FIFO, `q` in `s₀`. -/
def queue (s₀ : WrState c) (i : ℕ → WrInput c) (q : List (WrBeat c)) : ℕ → List (WrBeat c)
  | 0 => q
  | t + 1 => (s₀.run i t).out.queueNext ((s₀.run i t).validInit (i t)) ((s₀.run i t).wrBeatInit (i t))
      (i t).txWrReqTlpReady (queue s₀ i q t)

lemma queue_fifo {q : List (WrBeat c)} (h : WrFifo s₀ q) (t : ℕ) :
    WrFifo (s₀.run i t) (s₀.queue i q t) := by
  induction t with
  | zero => exact h
  | succ t ih => exact ih.step (i t)

/-- A stream that offers beats and a port that takes them again and again move another beat, as long as
the FSM is at work. -/
theorem granted_of_fair {q : List (WrBeat c)} (hfifo : WrFifo s₀ q)
    (hoffered : ∀ t, ∃ u, t ≤ u ∧ (i u).sAxisTlpTvalid = true)
    (htaken : ∀ t, ∃ u, t ≤ u ∧ (i u).txWrReqTlpReady = true) : s₀.Granted i := by
  intro t hbusy
  by_contra hnone
  push Not at hnone
  have hstart : ∀ u, t ≤ u → (s₀.run i u).reg.reqStateReg = .start := fun u hu =>
    (hnone u hu).2.2 u (by have := hbusy.1; omega) le_rfl
  have hstall : ∀ u, t ≤ u → (s₀.run i u).sAxisAccept (i u) = false := fun u hu =>
    Bool.eq_false_of_not_eq_true (hnone u hu).1
  have hpop : ∀ u, t ≤ u → s₀.queue i q (u + 1) =
      if (s₀.run i u).out.load (i u).txWrReqTlpReady then (s₀.queue i q u).tail else s₀.queue i q u := by
    intro u hu
    have hv : (s₀.run i u).validInit (i u) = false := by simp [validInit, hstall u hu]
    simp [queue, OutFifo.queueNext, hv]
  -- nothing comes in, so the FIFO stops moving, and a FIFO that does not move is empty
  obtain ⟨k, hconst⟩ := Progress.eventually_const (f := fun k => 18 - (s₀.queue i q (t + k)).length)
    (B := 18) (monotone_nat_of_le_succ fun k => by
      rw [← Nat.add_assoc, hpop (t + k) (by omega)]
      split_ifs
      · rw [List.length_tail]
        omega
      · exact le_rfl) (fun k => Nat.sub_le _ _)
  have hlength : ∀ u, t + k ≤ u → (s₀.queue i q u).length = (s₀.queue i q (t + k)).length := by
    intro u hu
    obtain ⟨d, rfl⟩ := Nat.exists_eq_add_of_le hu
    have hd := hconst (k + d) (by omega)
    have hle := (queue_fifo (i := i) hfifo (t + k)).length_le
    have hle' := (queue_fifo (i := i) hfifo (t + k + d)).length_le
    rw [← Nat.add_assoc] at hd
    omega
  have hempty : ∀ u, t + k ≤ u → s₀.queue i q u = [] := by
    intro u hu
    obtain ⟨v, hv, hready⟩ := htaken u
    have hload : (s₀.run i v).out.load (i v).txWrReqTlpReady = !(s₀.queue i q v).isEmpty := by
      rw [OutFifo.load_eq (queue_fifo hfifo v).stores, hready]
      simp
    have hnext := congrArg List.length (hpop v (by omega))
    rw [hload] at hnext
    have hv₁ := hlength v (by omega)
    have hv₂ := hlength (v + 1) (by omega)
    have hnil : s₀.queue i q v = [] := by
      by_contra hne
      have hpos := List.length_pos_iff.mpr hne
      rw [List.isEmpty_eq_false_iff.mpr hne, Bool.not_false, if_pos rfl, List.length_tail] at hnext
      omega
    rw [hnil, List.length_nil] at hv₁
    exact List.length_eq_zero_iff.mp (by rw [hlength u hu, ← hv₁])
  have hclear : ∀ u, t + k ≤ u → (s₀.run i (u + 1)).out.outFifoHalfFullReg = false := by
    intro u hu
    have hhalf := OutFifo.step_halfFull (queue_fifo (i := i) hfifo u).stores ((s₀.run i u).validInit (i u))
      ((s₀.run i u).wrBeatInit (i u)) (i u).txWrReqTlpReady
    rw [run, step, hhalf, hempty u hu]
    simp [outputFifoAddrWidthWr]
  obtain ⟨u, hu, hvalid⟩ := hoffered (t + k + 2)
  obtain ⟨v, rfl⟩ : ∃ v, u = v + 2 := ⟨u - 2, by omega⟩
  have hready : (s₀.run i (v + 2)).reg.sAxisTlpTreadyReg = true := by
    rw [run]
    simp [step, wrNext, hstart (v + 1) (by omega), hclear v (by omega)]
  have hacc := hstall (v + 2) (by omega)
  simp [sAxisAccept, hvalid, hready] at hacc

lemma fifo_reset (c : WrConfig) : WrFifo (WrState.reset c) [] :=
  ⟨OutFifo.reset_stores _, Nat.zero_le _, fun _ => Nat.zero_le _, fun _ => Nat.zero_le _⟩

end WrState

/-- Both request FSMs return behind no more transfers than their lengths need. -/
structure RequestFsmsReturn {cr : RdConfig} {cw : WrConfig} (rd : RdState cr) (ri : ℕ → RdInput cr)
    (wr : WrState cw) (wi : ℕ → WrInput cw) : Prop where
  read : rd.Returns ri (ri 0).descTxRdReqLength
  write : wr.Returns wi (wi 0).descWrReqLength

/-- With a fair MRd port, and with a stream and a TLP port that move again and again, both request FSMs
return exactly when the read has a length and does not run out of tags. It does not when its MRds are accepted
at once and either need no more tags than are free or are answered. -/
theorem request_fsms_return_iff {cr : RdConfig} {cw : WrConfig} (rd : RdState cr) (ri : ℕ → RdInput cr)
    (past wi : ℕ → WrInput cw) (t₀ : ℕ) (hread : rd.req.take (ri 0) = true)
    (hrlen : (ri 0).descTxRdReqLength < 2 ^ 32) (hport : rd.PortFair ri)
    (hwrite : ((WrState.reset cw).run past t₀).take (wi 0) = true)
    (hwlen : (wi 0).descWrReqLength < 2 ^ 32)
    (hoffered : ∀ t, ∃ u, t ≤ u ∧ (wi u).sAxisTlpTvalid = true)
    (htaken : ∀ t, ∃ u, t ≤ u ∧ (wi u).txWrReqTlpReady = true) :
    (RequestFsmsReturn rd ri ((WrState.reset cw).run past t₀) wi ↔
      (ri 0).descTxRdReqLength ≠ 0 ∧ rd.TagsFree ri) ∧
    (rd.EnoughTags ri ∨ (∃ mem, rd.Answered ri mem) →
      (RequestFsmsReturn rd ri ((WrState.reset cw).run past t₀) wi ↔ (ri 0).descTxRdReqLength ≠ 0)) := by
  have hiff : RequestFsmsReturn rd ri ((WrState.reset cw).run past t₀) wi ↔
      (ri 0).descTxRdReqLength ≠ 0 ∧ rd.TagsFree ri := by
    constructor
    · intro h
      refine ⟨fun hzero => ?_, RdState.tagsFree_of_returns h.read⟩
      have hreturns := h.read
      rw [hzero] at hreturns
      exact RdState.not_returns_zero hreturns
    · intro ⟨hpos, htags⟩
      exact ⟨RdState.returns_of_pos hread hrlen (Nat.pos_of_ne_zero hpos)
          (RdState.granted_of_fair hport htags),
        WrState.returns hwrite hwlen
          (WrState.granted_of_fair (WrState.queue_fifo (WrState.fifo_reset cw) t₀) hoffered htaken)⟩
  refine ⟨hiff, fun htags => hiff.trans (and_iff_left_of_imp fun hne => ?_)⟩
  have hpos := Nat.pos_of_ne_zero hne
  rcases htags with h | ⟨mem, h⟩
  · exact h.tagsFree hread hrlen hpos
  · exact h.tagsFree hread hrlen hpos

/-- One descriptor of the length, an MRd port that is always ready, and no completions. -/
def readOnly (length t : ℕ) : RdInput ⟨6, 5, 0, 2, tagWidth_five, payloadSize_two⟩ where
  descTxRdReqStart := t == 0
  descTxRdReqLength := length
  descTxRdReqAddress := 0
  txRdReqTlpReady := true
  rxCplTlpValid := false
  rxCplTlpHdr := 0
  rxCplTlpData := fun _ => 0
  mAxisTlpTready := true

lemma readOnly_fair (s₀ : RdState _) (length : ℕ) : s₀.PortFair (readOnly length) := by
  intro t _ hoffers
  obtain ⟨u, hu, hvalid⟩ := hoffers t le_rfl
  exact ⟨u, hu, by simpa [RdState.accepts, ReqReg.accept, readOnly] using hvalid⟩

/-- A read of 20000 bytes in 40 requests on an engine with 32 tags, and a write of 3000 bytes with code 5. -/
theorem request_fsms_return_served :
    let c : RdConfig := ⟨6, 5, 0, 2, tagWidth_five, payloadSize_two⟩
    let mem : HostMem := fun a => BitVec.ofNat 8 a
    RequestFsmsReturn (rdReset c) ((RdSystem.fresh (rdReset c)).servedInput mem 4096 20000)
      (WrState.reset ⟨6, 6, 0, 5, by decide, by decide⟩) (steadyInput _ 4096 3000) := by
  intro c mem
  have hc : c.Wide512 := ⟨rfl, rfl⟩
  have hserved : (rdReset c).Answered ((RdSystem.fresh (rdReset c)).servedInput mem 4096 20000) mem := by
    refine ⟨hc, rdReset_quiet c, ⟨by decide, by decide⟩, fun t ht => ?_, fun t => ?_, ?_⟩
    · simp only [RdSystem.servedInput, RdSystem.serve, beq_eq_false_iff_ne]
      omega
    · rw [RdSystem.run_servedInput]
      exact RdSystem.serve_legal mem 4096 20000 t _
    · exact RdSystem.served_fair hc mem (rdReset_quiet c) (by decide) (by decide) (by decide) (by decide)
  have hport : (rdReset c).PortFair ((RdSystem.fresh (rdReset c)).servedInput mem 4096 20000) := by
    intro t _ hoffers
    obtain ⟨u, hu, hvalid⟩ := hoffers t le_rfl
    exact ⟨u, hu, by simpa [RdState.accepts, ReqReg.accept, RdSystem.servedInput, RdSystem.serve] using hvalid⟩
  exact ((request_fsms_return_iff (rdReset c) _ (steadyInput _ 4096 3000) (steadyInput _ 4096 3000) 0 rfl
    (by decide) hport rfl (by decide) (fun t => ⟨t, le_rfl, rfl⟩) (fun t => ⟨t, le_rfl, rfl⟩)).2
    (.inr ⟨mem, hserved⟩)).mpr (by decide)

/-- A length of zero makes the read engine send an MRd. -/
theorem zero_length_requested : (rdReset _).PortFair (readOnly 0) ∧
    (rdReset _).acceptedMrds (readOnly 0) 4 = 1 ∧ ¬(rdReset _).Returns (readOnly 0) 0 :=
  ⟨readOnly_fair _ 0, by decide, RdState.not_returns_zero⟩

end FpgaPcie
