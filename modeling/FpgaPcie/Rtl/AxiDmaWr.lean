import FpgaPcie.Rtl.AxiBurst
import FpgaPcie.Rtl.OutFifoRuns

/-!
# The card memory writer `axi_dma_wr`

One FSM cuts a descriptor into bursts on the AW channel and hands the beats of the stream to the W channel through
an output FIFO; a counter and a small FIFO of write responses bound the bursts that are under way. The parameters
are those of the instances in `dma_if_pcie_axi_rd` and `sgdma_if_pcie_axi_rd`: aligned transfers, `tkeep`, a length
of 32 bits and `enable` tied to one. The status output is not connected there, so that what the status FIFO stores
is left out and only its pointers stay.
-/

namespace FpgaPcie

/-- `dma_if_pcie_axi_rd` ends a transfer with `tlast`, `sgdma_if_pcie_axi_rd` with its length. -/
structure AxiDmaWrConfig extends AxiConfig where
  axisLastEnable : Bool

/-- A beat of the W channel. -/
structure WBeat (n : ℕ) where
  wdata : Bytes n
  wstrb : Fin n → Bool
  wlast : Bool

inductive AxiDmaWrFsm
  | idle
  | start
  | write
  | finishBurst
  | dropData
  deriving DecidableEq

structure AxiDmaWrInput (c : AxiDmaWrConfig) where
  sAxisWriteDesc : AxiDesc
  sAxisWriteDescValid : Bool
  sAxisWriteData : AxisBeat c.axiStrbWidth
  sAxisWriteDataTvalid : Bool
  mAxiAwready : Bool
  mAxiWready : Bool
  mAxiBvalid : Bool

structure AxiDmaWrReg where
  stateReg : AxiDmaWrFsm
  addrReg : ℕ
  opWordCountReg : ℕ
  lastCycleOffsetReg : ℕ
  inputCycleCountReg : ℕ
  outputCycleCountReg : ℕ
  inputActiveReg : Bool
  firstCycleReg : Bool
  outputLastCycleReg : Bool
  lastTransferReg : Bool
  sAxisWriteDescReadyReg : Bool
  sAxisWriteDataTreadyReg : Bool
  mAxiAwaddrReg : ℕ
  mAxiAwlenReg : ℕ
  mAxiAwvalidReg : Bool

/-- The write responses that are due. -/
structure AxiStatusReg where
  statusFifoWrPtrReg : ℕ
  statusFifoRdPtrReg : ℕ
  activeCountReg : ℕ
  activeCountAvReg : Bool
  mAxiBreadyReg : Bool

structure AxiDmaWrState (c : AxiDmaWrConfig) where
  reg : AxiDmaWrReg
  status : AxiStatusReg
  out : OutFifo (WBeat c.axiStrbWidth)

variable {c : AxiDmaWrConfig}

namespace AxiDmaWrState

variable (s : AxiDmaWrState c) (i : AxiDmaWrInput c)

/-- `OUTPUT_FIFO_ADDR_WIDTH`. -/
def outputFifoAddrWidth : ℕ := 5

/-- `STATUS_FIFO_ADDR_WIDTH`. -/
def statusFifoAddrWidth : ℕ := 5

/-- `m_axi_wready_int`. -/
def wreadyInt : Bool := !s.out.outFifoHalfFullReg

def descAccept : Bool := s.reg.sAxisWriteDescReadyReg && i.sAxisWriteDescValid

/-- A beat of the stream is taken. -/
def dataAccept : Bool := s.reg.sAxisWriteDataTreadyReg && i.sAxisWriteDataTvalid

/-- A cycle of `STATE_WRITE` that makes a beat. -/
def writes : Bool :=
  s.reg.stateReg == .write && (s.dataAccept i || !s.reg.inputActiveReg && !s.reg.lastTransferReg)

/-- `shift_axis_tlast`. -/
def shiftAxisTlast : Bool := c.axisLastEnable && i.sAxisWriteData.tlast

/-- `STATE_START` puts a burst on the AW channel: the first one waits for a beat of the stream. -/
def startsBurst : Bool :=
  s.reg.stateReg == .start && (!s.reg.mAxiAwvalidReg && s.status.activeCountAvReg) &&
    (i.sAxisWriteDataTvalid || !s.reg.firstCycleReg)

/-- The lanes of the last word, `{AXI_STRB_WIDTH{1'b1}} >> (AXI_STRB_WIDTH - last_cycle_offset_reg)`. -/
def lastLanes (j : Fin c.axiStrbWidth) : Bool := decide (j.val < s.reg.lastCycleOffsetReg)

/-- `m_axi_wvalid_int`. -/
def wvalidInt : Bool := s.writes i || s.reg.stateReg == .finishBurst && s.wreadyInt

/-- The strobes of a beat of `STATE_WRITE`. -/
def wstrbInt : Fin c.axiStrbWidth → Bool :=
  let tkeep := i.sAxisWriteData.tkeep
  if shiftAxisTlast i then
    if s.reg.outputLastCycleReg && (s.reg.lastTransferReg && decide (0 < s.reg.lastCycleOffsetReg)) then
      if ∀ j, tkeep j = true → s.lastLanes j = true then tkeep else s.lastLanes
    else tkeep
  else if s.reg.outputLastCycleReg && (!decide (0 < s.reg.opWordCountReg) && decide (0 < s.reg.lastCycleOffsetReg)) then
    s.lastLanes
  else fun _ => true

/-- The beat for the output FIFO. A burst that the stream left early is filled up with beats that write nothing. -/
def beatInt : WBeat c.axiStrbWidth :=
  match s.reg.stateReg with
  | .finishBurst => ⟨fun _ => 0, fun _ => false, s.reg.outputLastCycleReg⟩
  | _ => ⟨i.sAxisWriteData.tdata, s.wstrbInt i, s.reg.outputLastCycleReg⟩

/-- An entry for the write response of a burst: its last beat, or the last beat of the stream. -/
def statusFifoWe : Bool := s.writes i && (shiftAxisTlast i || s.reg.outputLastCycleReg)

/-- A write response is due and comes. -/
def decActive : Bool :=
  s.status.statusFifoRdPtrReg != s.status.statusFifoWrPtrReg && (s.status.mAxiBreadyReg && i.mAxiBvalid)

def statusNext : AxiStatusReg :=
  let r := s.status
  let inc := s.startsBurst i
  let dec := s.decActive i
  { statusFifoWrPtrReg := if s.statusFifoWe i then (r.statusFifoWrPtrReg + 1) % 2 ^ (statusFifoAddrWidth + 1)
      else r.statusFifoWrPtrReg
    statusFifoRdPtrReg := if dec then (r.statusFifoRdPtrReg + 1) % 2 ^ (statusFifoAddrWidth + 1)
      else r.statusFifoRdPtrReg
    activeCountReg :=
      if decide (r.activeCountReg < 2 ^ statusFifoAddrWidth) && (inc && !dec) then r.activeCountReg + 1
      else if decide (0 < r.activeCountReg) && (!inc && dec) then r.activeCountReg - 1
      else r.activeCountReg
    activeCountAvReg :=
      if decide (r.activeCountReg < 2 ^ statusFifoAddrWidth) && (inc && !dec) then
        decide (r.activeCountReg < 2 ^ statusFifoAddrWidth - 1)
      else if decide (0 < r.activeCountReg) && (!inc && dec) then true
      else decide (r.activeCountReg < 2 ^ statusFifoAddrWidth)
    mAxiBreadyReg := r.statusFifoRdPtrReg != r.statusFifoWrPtrReg && !(r.mAxiBreadyReg && i.mAxiBvalid) }

/-! The `_next` values of the FSM, state by state. -/

/-- What holds unless a state says otherwise. -/
def defaultNext : AxiDmaWrReg :=
  { s.reg with
    sAxisWriteDescReadyReg := false
    sAxisWriteDataTreadyReg := false
    mAxiAwvalidReg := s.reg.mAxiAwvalidReg && !i.mAxiAwready }

def idleNext : AxiDmaWrReg :=
  { s.defaultNext i with
    stateReg := if s.descAccept i then .start else .idle
    addrReg := c.addrMask i.sAxisWriteDesc.addr
    opWordCountReg := i.sAxisWriteDesc.len
    lastCycleOffsetReg := i.sAxisWriteDesc.len % 2 ^ c.axiBurstSize
    firstCycleReg := true
    sAxisWriteDescReadyReg := !s.descAccept i && s.status.activeCountAvReg }

/-- `tr_word_count_next` and the counters of the next burst. -/
def countNext : AxiDmaWrReg :=
  let tr := c.trWordCountNext s.reg.addrReg s.reg.opWordCountReg
  { s.defaultNext i with
    inputCycleCountReg := c.cycleCountNext tr
    outputCycleCountReg := c.cycleCountNext tr
    outputLastCycleReg := decide (c.cycleCountNext tr = 0)
    lastTransferReg := decide (tr = s.reg.opWordCountReg)
    inputActiveReg := true }

def startNext : AxiDmaWrReg :=
  let tr := c.trWordCountNext s.reg.addrReg s.reg.opWordCountReg
  if !s.reg.mAxiAwvalidReg && s.status.activeCountAvReg then
    let r := { s.countNext i with
      mAxiAwaddrReg := s.reg.addrReg
      mAxiAwlenReg := c.axlenNext tr }
    if s.startsBurst i then
      { r with
        stateReg := .write
        addrReg := (s.reg.addrReg + tr) % 2 ^ c.axiAddrWidth
        opWordCountReg := (s.reg.opWordCountReg + (2 ^ 32 - tr)) % 2 ^ 32
        sAxisWriteDataTreadyReg := s.wreadyInt
        mAxiAwvalidReg := true }
    else r
  else s.countNext i

def inputCycleCountNext : ℕ :=
  if s.reg.inputActiveReg then c.cycleCountPred s.reg.inputCycleCountReg else s.reg.inputCycleCountReg

def inputActiveNext : Bool := s.reg.inputActiveReg && decide (0 < s.reg.inputCycleCountReg)

/-- The counters behind a beat of `STATE_WRITE`. -/
def wroteNext : AxiDmaWrReg :=
  { s.defaultNext i with
    inputCycleCountReg := s.inputCycleCountNext
    inputActiveReg := s.inputActiveNext && !shiftAxisTlast i
    outputCycleCountReg := c.cycleCountPred s.reg.outputCycleCountReg
    outputLastCycleReg := decide (c.cycleCountPred s.reg.outputCycleCountReg = 0)
    firstCycleReg := false }

def writeNext : AxiDmaWrReg :=
  if s.writes i then
    if shiftAxisTlast i then
      -- end of data packet
      if s.reg.outputLastCycleReg then
        { s.wroteNext i with
          stateReg := .idle
          sAxisWriteDescReadyReg := s.status.activeCountAvReg }
      else { s.wroteNext i with stateReg := .finishBurst }
    else if s.reg.outputLastCycleReg then
      if 0 < s.reg.opWordCountReg then { s.wroteNext i with stateReg := .start }
      else if c.axisLastEnable then
        -- not at the end of packet; drop remainder
        { s.wroteNext i with
          stateReg := .dropData
          sAxisWriteDataTreadyReg := true }
      else
        { s.wroteNext i with
          stateReg := .idle
          sAxisWriteDescReadyReg := s.status.activeCountAvReg }
    else
      { s.wroteNext i with
        sAxisWriteDataTreadyReg := s.wreadyInt &&
          (s.reg.lastTransferReg || s.inputActiveNext && !shiftAxisTlast i) }
  else
    { s.defaultNext i with
      sAxisWriteDataTreadyReg := s.wreadyInt && (s.reg.lastTransferReg || s.reg.inputActiveReg) }

def finishBurstNext : AxiDmaWrReg :=
  if s.wreadyInt then
    { s.defaultNext i with
      inputCycleCountReg := s.inputCycleCountNext
      inputActiveReg := s.inputActiveNext
      outputCycleCountReg := c.cycleCountPred s.reg.outputCycleCountReg
      outputLastCycleReg := decide (c.cycleCountPred s.reg.outputCycleCountReg = 0)
      stateReg := if s.reg.outputLastCycleReg then .idle else .finishBurst
      sAxisWriteDescReadyReg := s.reg.outputLastCycleReg && s.status.activeCountAvReg }
  else s.defaultNext i

def dropDataNext : AxiDmaWrReg :=
  if i.sAxisWriteDataTvalid && shiftAxisTlast i then
    { s.defaultNext i with
      stateReg := .idle
      sAxisWriteDescReadyReg := s.status.activeCountAvReg }
  else { s.defaultNext i with sAxisWriteDataTreadyReg := true }

def regNext : AxiDmaWrReg :=
  match s.reg.stateReg with
  | .idle => s.idleNext i
  | .start => s.startNext i
  | .write => s.writeNext i
  | .finishBurst => s.finishBurstNext i
  | .dropData => s.dropDataNext i

/-- One rising clock edge out of reset. -/
def step : AxiDmaWrState c where
  reg := s.regNext i
  status := s.statusNext i
  out := s.out.step outputFifoAddrWidth (s.wvalidInt i) (s.beatInt i) i.mAxiWready

def reset (c : AxiDmaWrConfig) : AxiDmaWrState c where
  reg := ⟨.idle, 0, 0, 0, 0, 0, false, false, false, false, false, false, 0, 0, false⟩
  status := ⟨0, 0, 0, true, false⟩
  out := OutFifo.reset ⟨fun _ => 0, fun _ => false, false⟩

/-! ### The state after an edge -/

lemma writes_eq_false (hs : s.reg.stateReg ≠ .write) : s.writes i = false := by
  simp [writes, hs]

lemma stateReg_idle (hs : s.reg.stateReg = .idle) :
    (s.regNext i).stateReg = if s.descAccept i then .start else .idle := by
  simp [regNext, hs, idleNext]

lemma stateReg_start (hs : s.reg.stateReg = .start) :
    (s.regNext i).stateReg = if s.startsBurst i then .write else .start := by
  have hkeep : (s.countNext i).stateReg = .start := hs
  cases hb : s.startsBurst i with
  | false =>
    simp only [regNext, hs, startNext, hb, Bool.false_eq_true, if_false]
    split_ifs <;> exact hkeep
  | true =>
    simp only [startsBurst, Bool.and_eq_true] at hb
    simp [regNext, hs, startNext, startsBurst, hb]

lemma stateReg_write (hs : s.reg.stateReg = .write) : (s.regNext i).stateReg =
    if s.writes i && (shiftAxisTlast i || s.reg.outputLastCycleReg) then
      if shiftAxisTlast i then if s.reg.outputLastCycleReg then .idle else .finishBurst
      else if 0 < s.reg.opWordCountReg then .start
      else if c.axisLastEnable then .dropData else .idle
    else .write := by
  have hkeep : (s.wroteNext i).stateReg = .write := hs
  have hdefault : (s.defaultNext i).stateReg = .write := hs
  simp only [regNext, hs, writeNext]
  cases hw : s.writes i with
  | false => simp [hdefault]
  | true =>
    cases hl : shiftAxisTlast i with
    | true => cases s.reg.outputLastCycleReg <;> simp
    | false =>
      cases s.reg.outputLastCycleReg with
      | false => simp [hkeep]
      | true =>
        by_cases hop : 0 < s.reg.opWordCountReg
        · simp [hop]
        · cases c.axisLastEnable <;> simp [hop]

lemma stateReg_finishBurst (hs : s.reg.stateReg = .finishBurst) : (s.regNext i).stateReg =
    if s.wreadyInt && s.reg.outputLastCycleReg then .idle else .finishBurst := by
  have hdefault : (s.defaultNext i).stateReg = .finishBurst := hs
  cases hr : s.wreadyInt with
  | false => simp [regNext, hs, finishBurstNext, hr, hdefault]
  | true => simp [regNext, hs, finishBurstNext, hr]

lemma stateReg_dropData (hs : s.reg.stateReg = .dropData) : (s.regNext i).stateReg =
    if i.sAxisWriteDataTvalid && shiftAxisTlast i then .idle else .dropData := by
  have hdefault : (s.defaultNext i).stateReg = .dropData := hs
  cases hl : i.sAxisWriteDataTvalid && shiftAxisTlast i with
  | false => simp [regNext, hs, dropDataNext, hl, hdefault]
  | true => simp [regNext, hs, dropDataNext, hl]

end AxiDmaWrState

end FpgaPcie
