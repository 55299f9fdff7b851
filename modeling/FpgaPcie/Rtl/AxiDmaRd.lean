import FpgaPcie.Rtl.AxiBurst
import FpgaPcie.Rtl.OutFifoRuns

/-!
# The card memory reader `axi_dma_rd`

One FSM cuts a descriptor into bursts on the AR channel, a second one turns the words that come back on
the R channel into a frame of the stream, and between them is a register for one command. The parameters
are those of the instances in `dma_if_pcie_axi_wr` and `sgdma_if_pcie_axi_wr`: aligned transfers, a length of
32 bits and `enable` tied to one. Tags, IDs and the status output are not connected there and are left out.
-/

namespace FpgaPcie

inductive AxiState
  | idle
  | start
  deriving DecidableEq

inductive AxisState
  | idle
  | read
  deriving DecidableEq

structure AxiDmaRdInput (c : AxiConfig) where
  sAxisReadDesc : AxiDesc
  sAxisReadDescValid : Bool
  mAxiArready : Bool
  mAxiRdata : Bytes c.axiStrbWidth
  mAxiRvalid : Bool
  mAxisReadDataTready : Bool

/-- The registers of the AXI FSM and its command for the other FSM. -/
structure AxiReg where
  axiStateReg : AxiState
  addrReg : ℕ
  opWordCountReg : ℕ
  axisCmdLastCycleOffsetReg : ℕ
  axisCmdInputCycleCountReg : ℕ
  axisCmdOutputCycleCountReg : ℕ
  axisCmdValidReg : Bool
  sAxisReadDescReadyReg : Bool
  mAxiAraddrReg : ℕ
  mAxiArlenReg : ℕ
  mAxiArvalidReg : Bool

/-- The registers of the AXI stream FSM. -/
structure AxisReg where
  axisStateReg : AxisState
  lastCycleOffsetReg : ℕ
  inputCycleCountReg : ℕ
  outputCycleCountReg : ℕ
  inputActiveReg : Bool
  outputActiveReg : Bool
  outputLastCycleReg : Bool
  mAxiRreadyReg : Bool

structure AxiDmaRdState (c : AxiConfig) where
  axi : AxiReg
  axis : AxisReg
  out : OutFifo (AxisBeat c.axiStrbWidth)

variable {c : AxiConfig}

namespace AxiDmaRdState

variable (s : AxiDmaRdState c) (i : AxiDmaRdInput c)

/-- `OUTPUT_FIFO_ADDR_WIDTH`. -/
def outputFifoAddrWidth : ℕ := 5

/-- `m_axis_read_data_tready_int`. -/
def treadyInt : Bool := !s.out.outFifoHalfFullReg

/-- The command moves on to the stream FSM. -/
def axisCmdReady : Bool := s.axis.axisStateReg == .idle && s.axi.axisCmdValidReg

def descAccept : Bool := s.axi.sAxisReadDescReadyReg && i.sAxisReadDescValid

/-- The `_next` values of the AXI FSM. -/
def axiNext : AxiReg :=
  let r := s.axi
  let r' := { r with
    mAxiArvalidReg := r.mAxiArvalidReg && !i.mAxiArready
    axisCmdValidReg := r.axisCmdValidReg && !s.axisCmdReady
    sAxisReadDescReadyReg := false }
  match r.axiStateReg with
  | .idle =>
    if s.descAccept i then
      { r' with
        axiStateReg := .start
        addrReg := c.addrMask i.sAxisReadDesc.addr
        opWordCountReg := i.sAxisReadDesc.len
        axisCmdLastCycleOffsetReg := i.sAxisReadDesc.len % 2 ^ c.axiBurstSize
        axisCmdInputCycleCountReg := c.cycleCountNext i.sAxisReadDesc.len
        axisCmdOutputCycleCountReg := c.cycleCountNext i.sAxisReadDesc.len
        axisCmdValidReg := true }
    else { r' with sAxisReadDescReadyReg := !r.axisCmdValidReg }
  | .start =>
    if r.mAxiArvalidReg then r'
    else
      let tr := c.trWordCountNext r.addrReg r.opWordCountReg
      let op := (r.opWordCountReg + (2 ^ 32 - tr)) % 2 ^ 32
      { r' with
        axiStateReg := if 0 < op then .start else .idle
        addrReg := (r.addrReg + tr) % 2 ^ c.axiAddrWidth
        opWordCountReg := op
        sAxisReadDescReadyReg := !decide (0 < op) && !r.axisCmdValidReg
        mAxiAraddrReg := r.addrReg
        mAxiArlenReg := c.axlenNext tr
        mAxiArvalidReg := true }

/-- The stream FSM turns a word into a beat, `m_axis_read_data_tvalid_int`. -/
def tvalidInt : Bool :=
  s.axis.axisStateReg == .read && (s.axis.mAxiRreadyReg && i.mAxiRvalid || !s.axis.inputActiveReg)

/-- The lanes of the last beat. -/
def tkeepLast (c : AxiConfig) (lastCycleOffset : ℕ) (j : Fin c.axiStrbWidth) : Bool :=
  decide (lastCycleOffset = 0) || decide (j.val < lastCycleOffset)

/-- The beat for the output FIFO. With aligned transfers the data is that of the R channel. -/
def beatInt : AxisBeat c.axiStrbWidth where
  tdata := i.mAxiRdata
  tkeep := if s.axis.outputLastCycleReg then tkeepLast c s.axis.lastCycleOffsetReg else fun _ => true
  tlast := s.axis.outputLastCycleReg

/-- The `_next` values of the stream FSM. -/
def axisNext : AxisReg :=
  let r := s.axis
  match r.axisStateReg with
  | .idle =>
    { axisStateReg := if s.axi.axisCmdValidReg then .read else .idle
      lastCycleOffsetReg := s.axi.axisCmdLastCycleOffsetReg
      inputCycleCountReg := s.axi.axisCmdInputCycleCountReg
      outputCycleCountReg := s.axi.axisCmdOutputCycleCountReg
      inputActiveReg := true
      outputActiveReg := true
      outputLastCycleReg := decide (s.axi.axisCmdOutputCycleCountReg = 0)
      mAxiRreadyReg := s.axi.axisCmdValidReg && s.treadyInt }
  | .read =>
    if s.tvalidInt i then
      let inputActive := if r.inputActiveReg then decide (0 < r.inputCycleCountReg) else false
      let outputCycleCount := if r.outputActiveReg then c.cycleCountPred r.outputCycleCountReg
        else r.outputCycleCountReg
      { r with
        axisStateReg := if r.outputLastCycleReg then .idle else .read
        inputCycleCountReg := if r.inputActiveReg then c.cycleCountPred r.inputCycleCountReg
          else r.inputCycleCountReg
        outputCycleCountReg := outputCycleCount
        inputActiveReg := inputActive
        outputActiveReg := if r.outputActiveReg then decide (0 < r.outputCycleCountReg) else false
        outputLastCycleReg := decide (outputCycleCount = 0)
        mAxiRreadyReg := !r.outputLastCycleReg && (s.treadyInt && inputActive) }
    else { r with mAxiRreadyReg := s.treadyInt && r.inputActiveReg }

/-- One rising clock edge out of reset. -/
def step : AxiDmaRdState c where
  axi := s.axiNext i
  axis := s.axisNext i
  out := s.out.step outputFifoAddrWidth (s.tvalidInt i) (s.beatInt i) i.mAxisReadDataTready

def reset (c : AxiConfig) : AxiDmaRdState c where
  axi := ⟨.idle, 0, 0, 0, 0, 0, false, false, 0, 0, false⟩
  axis := ⟨.idle, 0, 0, 0, false, false, false, false⟩
  out := OutFifo.reset ⟨fun _ => 0, fun _ => false, false⟩

end AxiDmaRdState

end FpgaPcie
