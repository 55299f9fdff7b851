import FpgaPcie.Rtl.DmaWrPacketise
import FpgaPcie.Rtl.OutFifoRuns

/-!
# The stream over many descriptors

The ready flag of the stream is a register, so it is still up in the first idle cycle behind a
descriptor. A beat that is offered there is accepted and goes nowhere. Apart from that the engine
takes exactly the beats of its descriptors, and all of them come out on the TLP port in order.
-/

namespace FpgaPcie

variable {c : WrConfig}

namespace WrState

variable (s : WrState c) (i : WrInput c)

/-- A descriptor is accepted. -/
def starts : Bool :=
  s.reg.reqStateReg == .idle && (i.descWrReqStart && !s.reg.descWrReqStartReg)

/-- A beat is accepted between two descriptors. -/
def swallows : Bool := s.reg.reqStateReg == .idle && s.sAxisAccept i

end WrState

/-- One more beat for the latest descriptor. -/
def countBeat : List (ℕ × ℕ) → List (ℕ × ℕ)
  | [] => []
  | (length, beats) :: ds => (length, beats + 1) :: ds

/-- The engine with what was accepted on the stream and on the TLP port. `descriptors` has the
length of each descriptor and the number of beats accepted for it, the latest first. -/
structure WrStream (c : WrConfig) where
  engine : WrState c
  accepted : List (SAxisBeat c.busBytes)
  emitted : List (WrBeat c)
  descriptors : List (ℕ × ℕ)

namespace WrStream

def step (x : WrStream c) (i : WrInput c) : WrStream c where
  engine := x.engine.step i
  accepted := x.accepted ++ if x.engine.sAxisAccept i then [i.sAxisTlp] else []
  emitted := x.emitted ++ if x.engine.out.outValidReg && i.txWrReqTlpReady then
    [x.engine.out.outReg] else []
  descriptors :=
    (if x.engine.starts i then [(i.descWrReqLength, 0)] else []) ++
      if x.engine.sAxisAccept i then countBeat x.descriptors else x.descriptors

def run (i : ℕ → WrInput c) : ℕ → WrStream c
  | 0 => ⟨.reset c, [], [], []⟩
  | t + 1 => (run i t).step (i t)

/-- The accepted beats have gone to the TLP port or wait for it in order, and each descriptor but
the one at work has all of its beats. -/
structure Conserves (x : WrStream c) : Prop where
  carried : ∃ q, x.engine.out.Stores outputFifoAddrWidthWr q ∧
    (x.emitted ++ x.engine.out.pending q).map WrBeat.txWrReqTlpData =
      x.accepted.map SAxisBeat.tdata
  idle : x.engine.reg.reqStateReg = .idle → ∀ d ∈ x.descriptors, d.2 = wrBeats c d.1
  start : x.engine.reg.reqStateReg = .start → ∃ d ds, x.descriptors = d :: ds ∧
    d.2 ≤ wrBeats c d.1 ∧ ∀ d ∈ ds, d.2 = wrBeats c d.1

/-! ### The invariant -/

/-- The request FSM counts the beats of the latest descriptor. A descriptor without beats is not
offered to the stream. -/
structure Counts (x : WrStream c) : Prop where
  idle : x.engine.reg.reqStateReg = .idle → ∀ d ∈ x.descriptors, d.2 = wrBeats c d.1
  start : x.engine.reg.reqStateReg = .start → ∃ d ds, x.descriptors = d :: ds ∧
    (∀ d ∈ ds, d.2 = wrBeats c d.1) ∧ d.1 < 2 ^ 32 ∧
    x.engine.reg.cycleReg = wrBeats c d.1 ∧ x.engine.reg.opCycleReg = d.2 ∧
    (d.2 < wrBeats c d.1 ∨ d.2 = wrBeats c d.1 ∧ x.engine.reg.sAxisTlpTreadyReg = false)

structure Inv (x : WrStream c) : Prop where
  fifo : ∃ q, WrFifo x.engine q ∧
    (x.emitted ++ x.engine.out.pending q).map WrBeat.txWrReqTlpData =
      x.accepted.map SAxisBeat.tdata
  counts : x.Counts

variable {x : WrStream c} {i : WrInput c}

lemma Inv.conserves (h : x.Inv) : x.Conserves := by
  obtain ⟨q, hq, hdata⟩ := h.fifo
  refine ⟨⟨q, hq.stores, hdata⟩, h.counts.idle, fun hs => ?_⟩
  obtain ⟨d, ds, hds, hall, -, -, -, hd⟩ := h.counts.start hs
  exact ⟨d, ds, hds, by omega, hall⟩

lemma Counts.step (h : x.Counts) (hlen : i.descWrReqLength < 2 ^ 32)
    (hno : x.engine.swallows i = false) : (x.step i).Counts := by
  cases hs : x.engine.reg.reqStateReg with
  | idle =>
    have hacc : x.engine.sAxisAccept i = false := by
      simpa [WrState.swallows, hs] using hno
    have hall := h.idle hs
    cases hr : i.descWrReqStart && !x.engine.reg.descWrReqStartReg with
    | false =>
      have hst : x.engine.starts i = false := by simp [WrState.starts, hr]
      refine ⟨fun _ => by simpa [WrStream.step, hst, hacc] using hall, fun hs' => ?_⟩
      simp [WrStream.step, WrState.step, WrState.wrNext, hs, hr] at hs'
    | true =>
      have hst : x.engine.starts i = true := by simp [WrState.starts, hs, hr]
      have hcycle := wrCycleNext_eq (c := c) hlen
      refine ⟨fun hs' => ?_, fun _ => ⟨(i.descWrReqLength, 0), x.descriptors, ?_, hall, hlen, ?_, ?_,
        ?_⟩⟩
      · simp [WrStream.step, WrState.step, WrState.wrNext, hs, hr] at hs'
      · simp [WrStream.step, hst, hacc]
      · simpa [WrStream.step, WrState.step, WrState.wrNext, hs, hr] using hcycle
      · simp [WrStream.step, WrState.step, WrState.wrNext, hs, hr]
      · rcases Nat.eq_zero_or_pos (wrBeats c i.descWrReqLength) with hz | hp
        · exact .inr ⟨hz.symm, by simp [WrStream.step, WrState.step, WrState.wrNext, hs, hr]⟩
        · exact .inl hp
  | start =>
    obtain ⟨d, ds, hds, hall, hd32, hcycle, hop, hd⟩ := h.start hs
    have hst : x.engine.starts i = false := by simp [WrState.starts, hs]
    have hb := wrBeats_lt (c := c) hd32
    have hmem : ∀ k, k = wrBeats c d.1 → ∀ d' ∈ (d.1, k) :: ds, d'.2 = wrBeats c d'.1 := by
      intro k hk d' hd'
      rcases List.mem_cons.mp hd' with rfl | hd'
      · exact hk
      · exact hall d' hd'
    cases hacc : x.engine.sAxisAccept i with
    | false =>
      have hdesc : (x.step i).descriptors = (d.1, d.2) :: ds := by simp [WrStream.step, hst, hacc, hds]
      by_cases hend : d.2 = wrBeats c d.1
      · refine ⟨fun _ => ?_, fun hs' => ?_⟩
        · rw [hdesc]
          exact hmem _ hend
        · simp [WrStream.step, WrState.step, WrState.wrNext, WrState.opCycleNext, hs, hacc, hop, hcycle,
            hend] at hs'
      · refine ⟨fun hs' => ?_, fun _ => ⟨d, ds, hdesc, hall, hd32, ?_, ?_, .inl (by omega)⟩⟩
        · simp [WrStream.step, WrState.step, WrState.wrNext, WrState.opCycleNext, hs, hacc, hop, hcycle,
            hend] at hs'
        · simp [WrStream.step, WrState.step, WrState.wrNext, hs, hcycle]
        · simp [WrStream.step, WrState.step, WrState.wrNext, WrState.opCycleNext, hs, hacc, hop]
    | true =>
      have hready : x.engine.reg.sAxisTlpTreadyReg = true := by
        simp only [WrState.sAxisAccept, Bool.and_eq_true] at hacc
        exact hacc.2
      have hlt : d.2 < wrBeats c d.1 := by
        rcases hd with hd | ⟨-, hd⟩
        · exact hd
        · rw [hready] at hd
          cases hd
      have hopn : x.engine.opCycleNext i = d.2 + 1 := by
        simp only [WrState.opCycleNext, hs, hacc, if_true, hop]
        omega
      have hdesc : (x.step i).descriptors = (d.1, d.2 + 1) :: ds := by
        simp [WrStream.step, hst, hacc, hds, countBeat]
      by_cases hend : d.2 + 1 = wrBeats c d.1
      · refine ⟨fun _ => ?_, fun hs' => ?_⟩
        · rw [hdesc]
          exact hmem _ hend
        · simp [WrStream.step, WrState.step, WrState.wrNext, hopn, hs, hcycle, hend] at hs'
      · refine ⟨fun hs' => ?_, fun _ => ⟨(d.1, d.2 + 1), ds, hdesc, hall, hd32, ?_, ?_,
          .inl (by simp only; omega)⟩⟩
        · simp [WrStream.step, WrState.step, WrState.wrNext, hopn, hs, hcycle, hend] at hs'
        · simp [WrStream.step, WrState.step, WrState.wrNext, hs, hcycle]
        · simp [WrStream.step, WrState.step, WrState.wrNext, hs, hopn]

/-- What leaves and what waits after an edge, when the output FIFO holds `q`. -/
lemma pending_step {q : List (WrBeat c)} (hq : x.engine.out.Stores outputFifoAddrWidthWr q)
    (hroom : x.engine.validInit i = true → q.length < 2 ^ outputFifoAddrWidthWr) :
    (x.step i).engine.out.Stores outputFifoAddrWidthWr
        (x.engine.out.queueNext (x.engine.validInit i) (x.engine.wrBeatInit i) i.txWrReqTlpReady q) ∧
      (x.step i).emitted ++ (x.step i).engine.out.pending
        (x.engine.out.queueNext (x.engine.validInit i) (x.engine.wrBeatInit i) i.txWrReqTlpReady q) =
        x.emitted ++ x.engine.out.pending q ++
          if x.engine.validInit i then [x.engine.wrBeatInit i] else [] := by
  refine ⟨OutFifo.step_stores hq _ hroom _ _, ?_⟩
  have hpend := OutFifo.step_pending hq (x.engine.validInit i) (x.engine.wrBeatInit i)
    i.txWrReqTlpReady
  show (x.emitted ++ _) ++ (x.engine.out.step _ _ _ _).pending _ = _
  rw [List.append_assoc, hpend, ← List.append_assoc]

theorem Inv.step (h : x.Inv) (hlen : i.descWrReqLength < 2 ^ 32)
    (hno : x.engine.swallows i = false) : (x.step i).Inv := by
  obtain ⟨q, hq, hdata⟩ := h.fifo
  refine ⟨⟨_, hq.step i, ?_⟩, h.counts.step hlen hno⟩
  have hvalid : x.engine.validInit i = x.engine.sAxisAccept i := by
    cases hs : x.engine.reg.reqStateReg with
    | idle =>
      have hacc : x.engine.sAxisAccept i = false := by simpa [WrState.swallows, hs] using hno
      simp [WrState.validInit, hs, hacc]
    | start => simp [WrState.validInit, hs]
  rw [(pending_step hq.stores hq.room).2, List.map_append, hdata, hvalid]
  simp only [WrStream.step, List.map_append]
  cases x.engine.sAxisAccept i <;> rfl

/-- A beat that is accepted between two descriptors is not carried. -/
theorem Conserves.not_step (h : x.Conserves) (hswallow : x.engine.swallows i = true) :
    ¬(x.step i).Conserves := by
  intro h'
  simp only [WrState.swallows, Bool.and_eq_true, beq_iff_eq] at hswallow
  obtain ⟨hs, hacc⟩ := hswallow
  have hv : x.engine.validInit i = false := validInit_eq_false (x := ⟨x.engine, [], []⟩) hs
  obtain ⟨q, hq, hdata⟩ := h.carried
  obtain ⟨q', hq', hdata'⟩ := h'.carried
  obtain ⟨hstores, hpend⟩ := pending_step (i := i) hq (by simp [hv])
  have hcount := (RingBuffer.Holds.count hq').symm.trans (RingBuffer.Holds.count hstores)
  rw [hv] at hcount
  have hl := congrArg List.length hdata
  have hl' := congrArg List.length hdata'
  have hlp := congrArg List.length hpend
  simp only [hv, WrStream.step, hacc, List.map_append, List.length_append, List.length_map,
    OutFifo.pending, if_true, Bool.false_eq_true, if_false, List.length_nil, List.length_singleton]
    at hl hl' hlp
  omega

/-! ### Runs -/

section Run

variable {i : ℕ → WrInput c}

lemma init_inv : (run i 0).Inv := by
  refine ⟨⟨[], ⟨OutFifo.reset_stores _, Nat.zero_le _, fun _ => Nat.zero_le _, fun _ => Nat.zero_le _⟩,
    rfl⟩, fun _ => nofun, nofun⟩

theorem run_inv (hlen : ∀ t, (i t).descWrReqLength < 2 ^ 32)
    (hno : ∀ t, (run i t).engine.swallows (i t) = false) (t : ℕ) : (run i t).Inv := by
  induction t with
  | zero => exact init_inv
  | succ t ih => exact ih.step (hlen t) (hno t)

/-- Every accepted beat leaves when the TLP port accepts beats again and again. -/
lemma run_leaves (hinv : ∀ t, (run i t).Inv)
    (htaken : ∀ t, ∃ u, t ≤ u ∧ (i u).txWrReqTlpReady = true) (t : ℕ) :
    ∃ u, t ≤ u ∧ (run i t).accepted.length ≤ (run i u).emitted.length := by
  have hmono : Monotone fun u => (run i u).accepted.length :=
    monotone_nat_of_le_succ fun u => by simp [run, WrStream.step]
  have hcount : ∀ v, t ≤ v → (run i (v + 1)).emitted.length =
      (run i v).emitted.length + ((run i v).engine.out.outValidReg && (i v).txWrReqTlpReady).toNat := by
    intro v _
    rw [run, WrStream.step]
    cases (run i v).engine.out.outValidReg && (i v).txWrReqTlpReady <;> simp
  have hcarried : ∀ v, t ≤ v → ∃ q, (run i v).engine.out.Stores outputFifoAddrWidthWr q ∧
      (run i t).accepted.length ≤
        (run i v).emitted.length + ((run i v).engine.out.pending q).length := by
    intro v hv
    obtain ⟨q, hq, hdata⟩ := (hinv v).fifo
    have hlen := congrArg List.length hdata
    simp only [List.length_map, List.length_append] at hlen
    have hacc := hmono hv
    exact ⟨q, hq.stores, hlen ▸ hacc⟩
  let u : ℕ → OutCycle (WrBeat c) := fun v =>
    ⟨false, (run i v).engine.validInit (i v), (run i v).engine.wrBeatInit (i v), (i v).txWrReqTlpReady⟩
  exact OutFifo.exists_delivered (u := u) (d := fun v => (run i v).emitted.length)
    (fun _ _ => rfl) hcount htaken hcarried

/-- A descriptor gets all of its beats when the stream and the TLP port move again and again. -/
lemma run_idle (hinv : ∀ t, (run i t).Inv)
    (hoffered : ∀ t, ∃ u, t ≤ u ∧ (i u).sAxisTlpTvalid = true)
    (htaken : ∀ t, ∃ u, t ≤ u ∧ (i u).txWrReqTlpReady = true) (t : ℕ) :
    ∃ u, t ≤ u ∧ (run i u).engine.reg.reqStateReg = .idle := by
  by_contra hnone
  have hstart : ∀ k, (run i (t + k)).engine.reg.reqStateReg = .start := by
    intro k
    cases hs : (run i (t + k)).engine.reg.reqStateReg with
    | idle => exact absurd ⟨t + k, by omega, hs⟩ hnone
    | start => rfl
  have hop : ∀ k, (run i (t + k)).engine.reg.opCycleReg < 2 ^ 32 ∧
      (run i (t + (k + 1))).engine.reg.opCycleReg = (run i (t + k)).engine.reg.opCycleReg +
        ((run i (t + k)).engine.sAxisAccept (i (t + k))).toNat := by
    intro k
    obtain ⟨d, ds, hds, -, hd32, -, hop, hd⟩ := (hinv (t + k)).counts.start (hstart k)
    obtain ⟨d', ds', hds', -, -, -, hop', -⟩ := (hinv (t + (k + 1))).counts.start (hstart (k + 1))
    have hb := wrBeats_lt (c := c) hd32
    have hst : (run i (t + k)).engine.starts (i (t + k)) = false := by
      simp [WrState.starts, hstart k]
    refine ⟨by omega, ?_⟩
    rw [hop, hop']
    rw [← Nat.add_assoc, run, WrStream.step, hst, hds] at hds'
    cases hacc : (run i (t + k)).engine.sAxisAccept (i (t + k)) with
    | false =>
      rw [hacc] at hds'
      simp only [Bool.false_eq_true, if_false, List.nil_append, List.cons.injEq] at hds'
      rw [← hds'.1]
      rfl
    | true =>
      rw [hacc] at hds'
      simp only [Bool.false_eq_true, if_false, if_true, List.nil_append, countBeat,
        List.cons.injEq] at hds'
      rw [← hds'.1]
      rfl
  obtain ⟨k₀, hconst⟩ := Progress.eventually_const
    (f := fun k => (run i (t + k)).engine.reg.opCycleReg)
    (monotone_nat_of_le_succ fun k => by rw [(hop k).2]; omega) fun k => (hop k).1.le
  -- from then on the stream stands still, so the output FIFO runs empty
  have hstall : ∀ k, k₀ ≤ k → (run i (t + k)).engine.sAxisAccept (i (t + k)) = false := by
    intro k hk
    have h1 := hconst k hk
    have h2 := hconst (k + 1) (by omega)
    rw [(hop k).2, h1] at h2
    cases hacc : (run i (t + k)).engine.sAxisAccept (i (t + k)) with
    | false => rfl
    | true =>
      rw [hacc, Bool.toNat_true] at h2
      omega
  have hsame : ∀ k, k₀ ≤ k → (run i (t + k)).accepted = (run i (t + k₀)).accepted := by
    intro k hk
    induction hk with
    | refl => rfl
    | @step k hk ih =>
      rw [← ih, Nat.add_succ, run]
      simp [WrStream.step, hstall k hk]
  obtain ⟨u, hu, hall⟩ := run_leaves hinv htaken (t + k₀)
  have hmono : Monotone fun v => (run i v).emitted.length :=
    monotone_nat_of_le_succ fun v => by simp [run, WrStream.step]
  have hempty : ∀ k, u ≤ t + k → ∃ q, WrFifo (run i (t + k)).engine q ∧ q = [] := by
    intro k hk
    obtain ⟨q, hq, hdata⟩ := (hinv (t + k)).fifo
    refine ⟨q, hq, ?_⟩
    have hlen := congrArg List.length hdata
    have hm : (run i u).emitted.length ≤ (run i (t + k)).emitted.length := hmono hk
    simp only [List.length_map, List.length_append, OutFifo.pending, hsame k (by omega)] at hlen
    exact List.length_eq_zero_iff.mp (by omega)
  have hready : ∀ k, u ≤ t + k → (run i (t + (k + 2))).engine.reg.sAxisTlpTreadyReg = true := by
    intro k hk
    obtain ⟨q, hq, rfl⟩ := hempty k hk
    have hhalf := OutFifo.step_halfFull hq.stores ((run i (t + k)).engine.validInit (i (t + k)))
      ((run i (t + k)).engine.wrBeatInit (i (t + k))) (i (t + k)).txWrReqTlpReady
    have hclear : (run i (t + (k + 1))).engine.out.outFifoHalfFullReg = false := by
      rw [← Nat.add_assoc, run, WrStream.step, WrState.step, hhalf]
      simp [outputFifoAddrWidthWr]
    rw [show t + (k + 2) = t + (k + 1) + 1 by omega, run]
    simp [WrStream.step, WrState.step, WrState.wrNext, hstart (k + 1), hclear]
  obtain ⟨v, hv, hvalid⟩ := hoffered (u + 2)
  obtain ⟨k, rfl⟩ : ∃ k, v = t + (k + 2) := ⟨v - t - 2, by omega⟩
  have hacc := hstall (k + 2) (by omega)
  simp [WrState.sAxisAccept, hvalid, hready k (by omega)] at hacc

/-- All accepted beats are carried, none besides those of the descriptors is accepted, and with a
stream and a TLP port that move again and again every descriptor and every beat gets through. -/
structure BlockBeatsOk (i : ℕ → WrInput c) : Prop where
  conserves : ∀ t, (run i t).Conserves
  leaves : (∀ t, ∃ u, t ≤ u ∧ (i u).txWrReqTlpReady = true) →
    ∀ t, ∃ u, t ≤ u ∧ (run i t).accepted.length ≤ (run i u).emitted.length
  idle : (∀ t, ∃ u, t ≤ u ∧ (i u).sAxisTlpTvalid = true) →
    (∀ t, ∃ u, t ≤ u ∧ (i u).txWrReqTlpReady = true) →
    ∀ t, ∃ u, t ≤ u ∧ (run i u).engine.reg.reqStateReg = .idle

/-- The beats of the stream are conserved if and only if none is accepted between two
descriptors. -/
theorem block_beats_iff (hlen : ∀ t, (i t).descWrReqLength < 2 ^ 32) :
    BlockBeatsOk i ↔ ∀ t, (run i t).engine.swallows (i t) = false := by
  constructor
  · intro h t
    by_contra hs
    exact (h.conserves t).not_step (by simpa using hs) (h.conserves (t + 1))
  · intro hno
    have hinv := run_inv hlen hno
    exact ⟨fun t => (hinv t).conserves, run_leaves hinv, run_idle hinv⟩

end Run

/-- Descriptors of 1000, 0 and 600 bytes for a stream that offers the sixteen beats of the first one in every
second cycle and the ten of the last one at once. The TLP port is ready in two cycles of three. -/
def threeDescriptors (c : WrConfig) (t : ℕ) : WrInput c :=
  { steadyInput c 4096 (if t < 40 then 1000 else if t < 50 then 0 else 600) t with
    descWrReqStart := t == 0 || t == 40 || t == 50
    txWrReqTlpReady := t % 3 != 0
    sAxisTlpTvalid := decide (2 ≤ t ∧ t < 34 ∧ t % 2 = 0) || decide (52 ≤ t ∧ t < 62) }

theorem block_beats_three : let i := threeDescriptors ⟨6, 6, 0, 2, by decide, by decide⟩
    (run i 80).descriptors = [(600, 10), (0, 0), (1000, 16)] ∧ (run i 80).emitted.length = 26 ∧ BlockBeatsOk i := by
  refine ⟨by decide +kernel, by decide +kernel, (block_beats_iff fun t => ?_ : BlockBeatsOk _ ↔ _).mpr fun t => ?_⟩
  · change (if t < 40 then 1000 else if t < 50 then 0 else 600) < 2 ^ 32
    split_ifs <;> norm_num
  by_cases ht : t < 62
  · have hall : ∀ t < 62, (run (threeDescriptors ⟨6, 6, 0, 2, by decide, by decide⟩) t).engine.swallows
        (threeDescriptors ⟨6, 6, 0, 2, by decide, by decide⟩ t) = false := by decide +kernel
    exact hall t ht
  · have hvalid : (threeDescriptors ⟨6, 6, 0, 2, by decide, by decide⟩ t).sAxisTlpTvalid = false := by
      simp [threeDescriptors]
      omega
    simp [WrState.swallows, WrState.sAxisAccept, hvalid]

/-- A stream that always offers a beat loses one behind a descriptor of 64 bytes. -/
theorem beat_swallowed :
    ¬BlockBeatsOk (steadyInput ⟨6, 6, 0, 2, by decide, by decide⟩ 4096 64) := by
  intro h
  exact (h.conserves 3).not_step (by decide +kernel) (h.conserves 4)

end WrStream

end FpgaPcie
