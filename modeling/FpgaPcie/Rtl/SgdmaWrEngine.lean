import FpgaPcie.Rtl.SgdmaWr

/-!
# The write engine inside the write side

The byte counter of the engine opens the stream only for the beats of the descriptor: a beat
is accepted exactly when the request FSM takes it. Between two descriptors nothing is accepted
and nothing is sent.
-/

namespace FpgaPcie

section Gate

variable {c : WrConfig} {address length : ℕ} {s : WrState c} {x : WrSystem c} {i : WrInput c}

/-- While beats are missing the byte counter counts them, and afterwards it shuts the stream. -/
structure WrGate (x : WrSystem c) : Prop where
  start : x.engine.reg.reqStateReg = .start → x.engine.reg.trBytesReg = 64 * x.taken.length
  idle : x.engine.reg.reqStateReg = .idle → x.engine.Shut

lemma lt_wrBeats_iff (hw : c.offsetWidth = 6) (b : ℕ) : b < wrBeats c length ↔ 64 * b < length := by
  rw [wrBeats_eq hw]
  exact Chunks.lt_count_iff (by norm_num)

lemma WrState.shut_of_idle (hs : s.reg.reqStateReg = .idle) (hstart : i.descWrReqStart = false) :
    (s.step i).Shut := by
  intro ht
  simp [WrState.step, WrState.wrNext, hs, hstart] at ht

theorem WrGate.step (hw : c.offsetWidth = 6) (hlen : length ≤ 2 ^ 32 - 64)
    (hstart : i.descWrReqStart = false)
    (hreq : WrReqInv (c := c) address length x.engine.reg x.taken.length) (h : WrGate x) :
    WrGate (x.step i) := by
  cases hs : x.engine.reg.reqStateReg with
  | idle =>
    refine ⟨fun h' => ?_, fun _ => WrState.shut_of_idle hs hstart⟩
    simp [WrSystem.step, WrState.step, WrState.wrNext, hs, hstart] at h'
  | start =>
    obtain ⟨hlt, hcycle, hop, -⟩ := hreq.start hs
    have hbytes := busBytes_eq hw
    have hcount := (lt_wrBeats_iff hw _).mp hlt
    have htr := h.start hs
    cases ha : x.engine.sAxisAccept i with
    | false =>
      have hv : x.engine.validInit i = false := by simp [WrState.validInit, ha]
      have hopn : x.engine.opCycleNext i = x.taken.length := by
        simp [WrState.opCycleNext, hs, ha, hop]
      have hne : ¬x.taken.length = wrBeats c length := by omega
      refine ⟨fun _ => ?_, fun h' => ?_⟩
      · simp [WrSystem.step, WrState.step, WrState.wrNext, WrState.trBytesNext, hs, ha, hv, hstart, htr]
      · simp [WrSystem.step, WrState.step, WrState.wrNext, hs, hopn, hcycle, hne] at h'
    | true =>
      have hv : x.engine.validInit i = true := by simp [WrState.validInit, hs, ha]
      obtain ⟨-, hopn⟩ := hreq.opCycleNext (by omega) hv
      have htaken : (x.step i).taken.length = x.taken.length + 1 := by
        simp [WrSystem.step, hv]
      have hbytesNext : (x.step i).engine.reg.trBytesReg = 64 * (x.taken.length + 1) := by
        simp only [WrSystem.step, WrState.step, WrState.wrNext, WrState.trBytesNext, hs, ha, hstart, htr,
          hbytes]
        simp only [Bool.false_eq_true, if_false, if_true]
        omega
      refine ⟨fun _ => ?_, fun h' _ => ?_⟩
      · rw [hbytesNext, htaken]
      · have hlast : x.taken.length + 1 = wrBeats c length := by
          by_contra hne
          simp [WrSystem.step, WrState.step, WrState.wrNext, hs, hopn, hcycle, hne] at h'
        have hlengthReg : (x.step i).engine.reg.descWrReqLengthReg = length := by
          simp [WrSystem.step, WrState.step, WrState.wrNext, hs, hreq.lengthReg]
        have hnot : ¬64 * (x.taken.length + 1) < length := by
          rw [← lt_wrBeats_iff (c := c) hw]
          omega
        rw [WrState.txWrReqTlpDone, hbytesNext, hlengthReg]
        simp only [Bool.and_eq_true, decide_eq_true_eq, bne_iff_ne]
        omega

/-- A beat is accepted exactly when the request FSM takes it. -/
theorem WrGate.accepts (hw : c.offsetWidth = 6)
    (hreq : WrReqInv (c := c) address length x.engine.reg x.taken.length) (h : WrGate x) :
    (i.sAxisTlpTvalid && (x.engine.reg.sAxisTlpTreadyReg && !x.engine.txWrReqTlpDone)) =
      x.engine.validInit i := by
  cases hs : x.engine.reg.reqStateReg with
  | idle =>
    have hshut := h.idle hs
    cases hr : x.engine.reg.sAxisTlpTreadyReg with
    | false => simp [WrState.validInit, hs]
    | true => simp [WrState.validInit, hs, hshut hr]
  | start =>
    obtain ⟨hlt, -⟩ := hreq.start hs
    have hcount := (lt_wrBeats_iff hw _).mp hlt
    have hdone : x.engine.txWrReqTlpDone = false := by
      rw [WrState.txWrReqTlpDone, h.start hs, hreq.lengthReg, decide_eq_false (by omega), Bool.false_and]
    simp [WrState.validInit, WrState.sAxisAccept, hs, hdone]

lemma WrInv.quiet (h : WrInv address length x) (hall : wrBeats c length ≤ x.emitted.length)
    (hstart : x.engine.reg.descWrReqStartReg = false) : x.engine.Quiet := by
  obtain ⟨q, hq⟩ := h.queue
  have hlen := congrArg List.length hq.beats
  rw [List.length_append, List.length_mapIdx] at hlen
  have hidle : x.engine.reg.reqStateReg = .idle := by
    cases hs : x.engine.reg.reqStateReg with
    | idle => rfl
    | start =>
      have := (h.req.start hs).1
      omega
  have htaken := h.req.idle hidle
  have hpending : x.engine.out.pending q = [] := List.eq_nil_of_length_eq_zero (by omega)
  obtain ⟨hout, rfl⟩ := List.append_eq_nil_iff.mp hpending
  refine ⟨hidle, h.req.addressReg, hstart, hq.stores, ?_⟩
  by_contra hv
  rw [Bool.not_eq_false] at hv
  simp [hv] at hout

lemma WrState.Quiet.validInit (h : s.Quiet) : s.validInit i = false := by
  simp [WrState.validInit, h.idle]

lemma WrState.Quiet.step (h : s.Quiet) (hstart : i.descWrReqStart = false) : (s.step i).Quiet := by
  have hv := h.validInit (i := i)
  have hstores := OutFifo.step_stores h.outFifo (s.validInit i) (fun hv' => by simp [hv] at hv')
    (s.wrBeatInit i) i.txWrReqTlpReady
  rw [hv, OutFifo.queueNext_nil] at hstores
  refine ⟨?_, ?_, ?_, ?_, ?_⟩
  · simp [WrState.step, WrState.wrNext, h.idle, hstart]
  · simp [WrState.step, WrState.wrNext, h.idle, hstart, h.addressReg]
  · simp [WrState.step, WrState.wrNext, h.idle, hstart]
  · simpa [WrState.step, hv] using hstores
  · simp [WrState.step, OutFifo.step, OutFifo.load_eq h.outFifo, h.outValid]

lemma WrState.Quiet.launch (h : s.Quiet) (hstart : i.descWrReqStart = true) :
    WrGate ((WrSystem.fresh s).step i) ∧ (s.step i).reg.sAxisTlpTreadyReg = false := by
  refine ⟨⟨fun _ => ?_, fun h' => ?_⟩, ?_⟩
  · simp [WrSystem.step, WrSystem.fresh, WrState.step, WrState.wrNext, WrState.trBytesNext, h.idle, h.startReg,
      hstart, h.validInit]
  · simp [WrSystem.step, WrSystem.fresh, WrState.step, WrState.wrNext, h.idle, h.startReg, hstart] at h'
  · simp [WrState.step, WrState.wrNext, h.idle, h.startReg, hstart]

end Gate

/-! ### The engine and the logs -/

variable {c : SgWrConfig} {x : SgWrSystem c} {i : SgWrInput c} {cur : List (SAxisBeat c.wr.busBytes)}
  {out : List (WrBeat c.wr)}

namespace SgWrSystem

/-- The engine, when `cur` has been taken and `out` has been sent for its current descriptor. -/
def engine (x : SgWrSystem c) (cur : List (SAxisBeat c.wr.busBytes)) (out : List (WrBeat c.wr)) :
    WrSystem c.wr :=
  ⟨x.state.sgdmaWr, cur, out⟩

/-- The beat that the engine takes in this cycle. -/
def taken (x : SgWrSystem c) (i : SgWrInput c) : List (SAxisBeat c.wr.busBytes) :=
  if x.state.sgdmaWr.validInit (x.state.engineInput i) then [i.sAxisTlp] else []

/-- The beat that is sent in this cycle. -/
def sent (x : SgWrSystem c) (i : SgWrInput c) : List (WrBeat c.wr) :=
  if x.state.txWrReqTlpAccept i then [x.state.sgdmaWr.out.outReg] else []

@[simp] lemma step_reg : (x.step i).state.reg = x.state.sgdmaNext i := rfl

lemma engine_step : (x.step i).engine (cur ++ x.taken i) (out ++ x.sent i) =
    (x.engine cur out).step (x.state.engineInput i) := rfl

lemma emitted_step : (x.step i).emitted = x.emitted ++ x.sent i := rfl

/-- The engine is between two descriptors. -/
structure EngineIdle (x : SgWrSystem c) : Prop where
  quiet : x.state.sgdmaWr.Quiet
  shut : x.state.sgdmaWr.Shut

namespace EngineIdle

lemma sent (h : x.EngineIdle) : x.sent i = [] := by
  simp [SgWrSystem.sent, SgWrState.txWrReqTlpAccept, h.quiet.outValid]

lemma taken (h : x.EngineIdle) : x.taken i = [] := by
  simp [SgWrSystem.taken, h.quiet.validInit]

lemma emitted (h : x.EngineIdle) : (x.step i).emitted = x.emitted := by
  rw [emitted_step, h.sent, List.append_nil]

lemma accepted (h : x.EngineIdle) : (x.step i).accepted = x.accepted := by
  have hready : x.state.sAxisTlpTready = false := by
    cases hr : x.state.sgdmaWr.reg.sAxisTlpTreadyReg with
    | false => simp [SgWrState.sAxisTlpTready, hr]
    | true => simp [SgWrState.sAxisTlpTready, hr, h.shut hr]
  simp [SgWrSystem.step, hready]

lemma step (h : x.EngineIdle) (hstart : x.state.descTxWrStartInit = false) : (x.step i).EngineIdle :=
  ⟨h.quiet.step hstart, WrState.shut_of_idle h.quiet.idle hstart⟩

end EngineIdle

/-- The engine runs a descriptor, of which `cur` has been taken and `out` has been sent. -/
structure EngineRuns (address length : ℕ) (x : SgWrSystem c) (cur : List (SAxisBeat c.wr.busBytes))
    (out : List (WrBeat c.wr)) : Prop where
  inv : WrInv address length (x.engine cur out)
  gate : WrGate (x.engine cur out)

variable {address length : ℕ}

namespace EngineRuns

lemma accepted (hw : c.wr.offsetWidth = 6) (h : x.EngineRuns address length cur out) :
    (x.step i).accepted = x.accepted ++ x.taken i := by
  have ha := h.gate.accepts (i := x.state.engineInput i) hw h.inv.req
  have ha' : (i.sAxisTlpTvalid && x.state.sAxisTlpTready) =
      x.state.sgdmaWr.validInit (x.state.engineInput i) := ha
  rw [SgWrSystem.step, ha', SgWrSystem.taken]

lemma step (hw : c.wr.offsetWidth = 6) (hcode : c.wr.maxPayloadSize ≤ 3) (hlen : length ≤ 2 ^ 32 - 64)
    (hstart : x.state.descTxWrStartInit = false) (h : x.EngineRuns address length cur out) :
    (x.step i).EngineRuns address length (cur ++ x.taken i) (out ++ x.sent i) := by
  have hlow : (x.state.engineInput i).descWrReqStart = true →
      x.state.sgdmaWr.reg.descWrReqStartReg = true := by
    intro hs
    rw [SgWrState.engineInput, hstart] at hs
    cases hs
  constructor
  · rw [engine_step]
    exact h.inv.step hw hcode (by omega) hlow
  · rw [engine_step]
    exact h.gate.step hw hlen hstart h.inv.req

end EngineRuns

lemma EngineIdle.launch (h : x.EngineIdle) (hcode : c.wr.maxPayloadSize ≤ 3)
    (hstart : x.state.descTxWrStartInit = true) (hpos : 1 ≤ x.state.dmaWrSglistFifoDout.length) :
    (x.step i).EngineRuns x.state.dmaWrSglistFifoDout.address x.state.dmaWrSglistFifoDout.length [] [] ∧
      (x.step i).state.sgdmaWr.reg.sAxisTlpTreadyReg = false := by
  have hinit := WrInv.init (j := x.state.engineInput i) hcode x.state.dmaWrSglistFifoDout.address_lt
    (by exact hpos) x.state.dmaWrSglistFifoDout.length_lt h.quiet hstart
  obtain ⟨hgate, hready⟩ := h.quiet.launch (i := x.state.engineInput i) hstart
  have hengine : (x.step i).engine [] [] =
      (WrSystem.fresh x.state.sgdmaWr).step (x.state.engineInput i) := by
    have hs : (x.step i).engine ([] ++ x.taken i) ([] ++ x.sent i) = _ := engine_step
    rw [h.taken, h.sent] at hs
    exact hs
  refine ⟨⟨?_, ?_⟩, hready⟩
  · rw [hengine]
    exact hinit
  · rw [hengine]
    exact hgate

end SgWrSystem

end FpgaPcie
