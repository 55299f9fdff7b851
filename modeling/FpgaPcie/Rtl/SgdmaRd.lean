import FpgaPcie.Rtl.SgList

/-!
# The scatter-gather read side `sgdma_if_pcie_axis_rd`

One read engine fetches the list and then every segment of it. While the list comes in, its
beats go to the list FIFO; while a segment comes in, its beats go to the stream.
-/

namespace FpgaPcie

inductive SgdmaRdState
  | idle
  | rdlist
  | rdrecv
  | rdstart
  | endl
  deriving DecidableEq

structure SgRdInput (c : RdConfig) where
  descRdReqSglistLength : ℕ
  descRdReqSglistAddress : ℕ
  descRdReqSglistStart : Bool
  descRdReqSgdmaStart : Bool
  txRdReqTlpReady : Bool
  rxCplTlpValid : Bool
  rxCplTlpHdr : BitVec 128
  rxCplTlpData : Bytes c.busBytes
  mAxisTlpTready : Bool

structure SgRdReg (c : RdConfig) where
  sgdmaRdStateReg : SgdmaRdState
  descRdReqSglistStartDReg : Bool
  descRdReqSgdmaStartReg : Bool
  dmaRdSglistFifoWrEnReg : Bool
  dmaRdSglistFifoWrDataReg : Bytes c.busBytes
  dmaRdSglistFifoRdEnReg : Bool
  txRdReqIrqReg : Bool
  descRdReqSglistLengthReg : ℕ
  descRdReqSglistAddressReg : ℕ
  descRdReqSglistStartReg : Bool

/-- The registers, the list FIFO and the engine `sgdma_list_rd`. -/
structure SgRdState (c : RdConfig) where
  reg : SgRdReg c
  dmaRdSglistFifo : SglistFifo c.busBytes sglistFifoDepth
  sgdmaListRd : RdState c

variable {c : RdConfig}

namespace SgRdState

variable (s : SgRdState c) (i : SgRdInput c)

/-! ### The stream between the engine and its two consumers -/

def cpldRxAxisTready : Bool :=
  match s.reg.sgdmaRdStateReg with
  | .rdrecv => !s.dmaRdSglistFifo.alfull
  | .endl => i.mAxisTlpTready
  | _ => false

/-- The inputs of the engine. -/
def engineInput : RdInput c where
  descTxRdReqStart := s.reg.descRdReqSglistStartReg
  descTxRdReqLength := s.reg.descRdReqSglistLengthReg
  descTxRdReqAddress := s.reg.descRdReqSglistAddressReg
  txRdReqTlpReady := i.txRdReqTlpReady
  rxCplTlpValid := i.rxCplTlpValid
  rxCplTlpHdr := i.rxCplTlpHdr
  rxCplTlpData := i.rxCplTlpData
  mAxisTlpTready := s.cpldRxAxisTready i

/-- A beat leaves the engine: `cpld_rx_axis_tvalid & cpld_rx_axis_tready`. -/
def cpldRxAxisAccept : Bool := s.sgdmaListRd.out.outValidReg && s.cpldRxAxisTready i

def mAxisTlpTvalid : Bool :=
  s.reg.sgdmaRdStateReg == .endl && s.sgdmaListRd.out.outValidReg

def mAxisTlp : AxisBeat c.busBytes :=
  if s.reg.sgdmaRdStateReg = .endl then s.sgdmaListRd.out.outReg
  else ⟨fun _ => 0, fun _ => false, false⟩

/-! ### Clock edge -/

/-- The `_next` values of the FSM, as the registers they are loaded into. -/
def sgdmaRdNext : SgRdReg c :=
  let r := s.reg
  let r' := { r with
    dmaRdSglistFifoWrEnReg := false
    descRdReqSgdmaStartReg := i.descRdReqSgdmaStart
    dmaRdSglistFifoRdEnReg := false
    txRdReqIrqReg := false
    descRdReqSglistStartDReg := i.descRdReqSglistStart }
  match r.sgdmaRdStateReg with
  | .idle =>
    { r' with
      sgdmaRdStateReg :=
        if i.descRdReqSglistStart && !r.descRdReqSglistStartDReg then .rdlist else .idle }
  | .rdlist =>
    if r.descRdReqSglistStartReg then
      { r' with
        descRdReqSglistStartReg := false
        sgdmaRdStateReg := .rdrecv }
    else
      { r' with
        descRdReqSglistLengthReg := i.descRdReqSglistLength
        descRdReqSglistAddressReg := i.descRdReqSglistAddress
        descRdReqSglistStartReg := true }
  | .rdrecv =>
    { r' with
      dmaRdSglistFifoWrEnReg := s.cpldRxAxisAccept i
      dmaRdSglistFifoWrDataReg := s.sgdmaListRd.out.outReg.kept
      txRdReqIrqReg := s.cpldRxAxisAccept i && s.sgdmaListRd.out.outReg.tlast
      sgdmaRdStateReg :=
        if i.descRdReqSgdmaStart && !r.descRdReqSgdmaStartReg then .rdstart else .rdrecv }
  | .rdstart =>
    if r.dmaRdSglistFifoRdEnReg then
      { r' with
        descRdReqSglistStartReg := false
        sgdmaRdStateReg := .endl }
    else
      match s.dmaRdSglistFifo.words.head? with
      | some e =>
        { r' with
          dmaRdSglistFifoRdEnReg := true
          descRdReqSglistLengthReg := e.length
          descRdReqSglistAddressReg := e.address
          descRdReqSglistStartReg := decide (e ≠ SgEntry.zero) }
      | none => { r' with
          sgdmaRdStateReg := if r.dmaRdSglistFifoWrEnReg then .rdstart else .idle }
  | .endl =>
    { r' with
      sgdmaRdStateReg :=
        if r.descRdReqSglistLengthReg = 0 then .rdstart
        else if s.cpldRxAxisAccept i && s.sgdmaListRd.out.outReg.tlast then .rdstart
        else .endl }

/-- One rising clock edge out of reset. -/
def step : SgRdState c where
  reg := s.sgdmaRdNext i
  dmaRdSglistFifo := s.dmaRdSglistFifo.clock
    (if s.reg.dmaRdSglistFifoWrEnReg then s.reg.dmaRdSglistFifoWrDataReg.entries else [])
    s.reg.dmaRdSglistFifoRdEnReg
  sgdmaListRd := rdStep s.sgdmaListRd (s.engineInput i)

def reset (c : RdConfig) : SgRdState c where
  reg := ⟨.idle, false, false, false, fun _ => 0, false, false, 0, 0, false⟩
  dmaRdSglistFifo := BoundedQueue.empty _ _
  sgdmaListRd := rdReset c

end SgRdState

/-! ### The read side and its host -/

/-- The read side with its host, and the logs of a run: the descriptors the engine took, the
beats accepted on the stream, and whether the interrupt has been raised. -/
structure SgRdSystem (c : RdConfig) where
  state : SgRdState c
  owed : ℕ → List CplBeat
  launches : List (ℕ × ℕ)
  accepted : List (AxisBeat c.busBytes)
  irqSeen : Bool

namespace SgRdSystem

variable (x : SgRdSystem c) (i : SgRdInput c)

/-- The engine with its host, when `cur` has been taken from its current descriptor. -/
def engine (cur : List (AxisBeat c.busBytes)) : RdSystem c := ⟨x.state.sgdmaListRd, x.owed, cur⟩

def step : SgRdSystem c where
  state := x.state.step i
  owed := (x.engine []).owedNext (x.state.engineInput i)
  launches := x.launches ++ if x.state.sgdmaListRd.req.take (x.state.engineInput i) then
    [(x.state.reg.descRdReqSglistAddressReg, x.state.reg.descRdReqSglistLengthReg)] else []
  accepted := x.accepted ++ if x.state.mAxisTlpTvalid && i.mAxisTlpTready then
    [x.state.mAxisTlp] else []
  irqSeen := x.irqSeen || (x.state.sgdmaRdNext i).txRdReqIrqReg

def run (x : SgRdSystem c) (i : ℕ → SgRdInput c) : ℕ → SgRdSystem c
  | 0 => x
  | t + 1 => (x.run i t).step (i t)

/-- The read side with nothing owed and empty logs. -/
def fresh (s : SgRdState c) : SgRdSystem c := ⟨s, fun _ => [], [], [], false⟩

/-- The beat on the stream, if there is one. -/
def offered : List (AxisBeat c.busBytes) :=
  if x.state.mAxisTlpTvalid then [x.state.mAxisTlp] else []

/-- The host is legal for the engine, and starts the transfer only when it has seen the
interrupt. -/
structure Legal (mem : HostMem) (x : SgRdSystem c) (i : SgRdInput c) : Prop where
  host : (x.engine []).Legal mem (x.state.engineInput i)
  sgdmaStart : i.descRdReqSgdmaStart = true → x.irqSeen = true

/-- What is owed is offered, the consumer is ready again and again, and the transfer is started
some time after the interrupt. -/
structure Fair (x : SgRdSystem c) (i : ℕ → SgRdInput c) : Prop where
  answered : ∀ t tag, (x.run i t).owed tag ≠ [] → ∃ u, t ≤ u ∧ (i u).rxCplTlpValid = true
  consumed : ∀ t, ∃ u, t ≤ u ∧ (i u).mAxisTlpTready = true
  started : ∀ t, (x.run i t).irqSeen = true → ∃ u, t ≤ u ∧ (i u).descRdReqSgdmaStart = true

end SgRdSystem

/-- The read side between two lists. -/
structure SgRdState.Quiet (s : SgRdState c) : Prop where
  idle : s.reg.sgdmaRdStateReg = .idle
  startReg : s.reg.descRdReqSglistStartReg = false
  wrEn : s.reg.dmaRdSglistFifoWrEnReg = false
  rdEn : s.reg.dmaRdSglistFifoRdEnReg = false
  fifo : s.dmaRdSglistFifo.words = []
  engine : s.sgdmaListRd.Quiet

lemma sgRdReset_quiet (c : RdConfig) : (SgRdState.reset c).Quiet :=
  ⟨rfl, rfl, rfl, rfl, rfl, rdReset_quiet c⟩

/-- The inputs start one list, with a rising edge in cycle 0. -/
structure ListStartsOnce (i : ℕ → SgRdInput c) (address n : ℕ) : Prop where
  rise : (i 0).descRdReqSglistStart = true
  address : (i 1).descRdReqSglistAddress = address
  length : (i 1).descRdReqSglistLength = 16 * n
  once : ∀ t, (i (t + 1)).descRdReqSglistStart = true → (i t).descRdReqSglistStart = true

end FpgaPcie
