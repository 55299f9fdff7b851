import FpgaPcie.Rtl.DmaWrRun
import FpgaPcie.Rtl.SgList

/-!
# The scatter-gather write side `sgdma_if_pcie_axis_wr`

A read engine fetches the list into the list FIFO; then the write engine is started for one
entry after the other. The list reader is outside of this model: its request is an output and
its stream an input.
-/

namespace FpgaPcie

/-- The parameters of the list reader and of the write engine, on one bus. -/
structure SgWrConfig where
  rd : RdConfig
  wr : WrConfig
  width_eq : rd.offsetWidth = wr.offsetWidth

inductive SgdmaWrState
  | idle
  | rdlist
  | rdrecv
  | wrmem
  | wrend
  deriving DecidableEq

structure SgWrInput (c : SgWrConfig) where
  descWrReqSglistLength : ℕ
  descWrReqSglistAddress : ℕ
  descWrReqSglistStart : Bool
  descWrReqSgdmaStart : Bool
  sglistAxis : AxisBeat c.rd.busBytes
  sglistAxisTvalid : Bool
  txWrReqTlpReady : Bool
  sAxisTlp : SAxisBeat c.wr.busBytes
  sAxisTlpTvalid : Bool

structure SgWrReg where
  sgdmaStateReg : SgdmaWrState
  descWrReqSglistStartReg : Bool
  descWrReqSglistLengthReg : ℕ
  descWrReqSglistAddressReg : ℕ
  dmaWrSglistFifoRdenReg : Bool
  descTxWrLengthReg : ℕ
  sgdmaStageCountReg : ℕ
  txWrSglistIrqReg : Bool

/-- `SGLIST_FIFO_DEPTH = 10`: the list FIFO of the write side has 1024 beats. -/
def sglistFifoDepthWr : ℕ := 10

/-- The registers, the list FIFO and the engine `sgdma_wr`. -/
structure SgWrState (c : SgWrConfig) where
  reg : SgWrReg
  dmaWrSglistFifo : SglistFifo c.rd.busBytes sglistFifoDepthWr
  sgdmaWr : WrState c.wr

variable {c : SgWrConfig}

namespace SgWrState

variable (s : SgWrState c) (i : SgWrInput c)

/-! ### The list FIFO -/

def dmaWrSglistFifoEmpty : Bool := s.dmaWrSglistFifo.words.isEmpty

/-- The word on the read port. It is not used while the FIFO is empty. -/
def dmaWrSglistFifoDout : SgEntry := s.dmaWrSglistFifo.words.headD SgEntry.zero

def sglistAxisTreadyInit : Bool := !s.dmaWrSglistFifo.alfull

def dmaWrSglistFifoWren : Bool := i.sglistAxisTvalid && s.sglistAxisTreadyInit

/-! ### The list reader and the write engine -/

def descTxRdReqStartInit : Bool :=
  s.reg.sgdmaStateReg == .rdlist && s.reg.descWrReqSglistStartReg

def descTxWrStartInit : Bool :=
  s.reg.sgdmaStateReg == .wrmem && !s.reg.dmaWrSglistFifoRdenReg && !s.dmaWrSglistFifoEmpty &&
    decide (s.dmaWrSglistFifoDout ≠ SgEntry.zero)

/-- The inputs of the write engine. -/
def engineInput : WrInput c.wr where
  descWrReqLength := s.dmaWrSglistFifoDout.length
  descWrReqAddress := s.dmaWrSglistFifoDout.address
  descWrReqStart := s.descTxWrStartInit
  txWrReqTlpReady := i.txWrReqTlpReady
  sAxisTlp := i.sAxisTlp
  sAxisTlpTvalid := i.sAxisTlpTvalid

/-- `s_axis_tlp_tready`. -/
def sAxisTlpTready : Bool := s.sgdmaWr.reg.sAxisTlpTreadyReg && !s.sgdmaWr.txWrReqTlpDone

/-- A beat is accepted on the TLP port. -/
def txWrReqTlpAccept : Bool := s.sgdmaWr.out.outValidReg && i.txWrReqTlpReady

/-! ### Clock edge -/

/-- The `_next` values of the FSM, as the registers they are loaded into. -/
def sgdmaNext : SgWrReg :=
  let r := s.reg
  let r' := { r with
    descWrReqSglistStartReg := i.descWrReqSglistStart
    descTxWrLengthReg :=
      if r.dmaWrSglistFifoRdenReg then s.dmaWrSglistFifoDout.length else r.descTxWrLengthReg
    txWrSglistIrqReg := false }
  match r.sgdmaStateReg with
  | .idle =>
    if i.descWrReqSglistStart && !r.descWrReqSglistStartReg then
      { r' with
        sgdmaStateReg := .rdlist
        descWrReqSglistLengthReg := i.descWrReqSglistLength
        descWrReqSglistAddressReg := i.descWrReqSglistAddress
        sgdmaStageCountReg := 0 }
    else { r' with sgdmaStageCountReg := 0 }
  | .rdlist =>
    { r' with sgdmaStateReg := if r.descWrReqSglistStartReg then .rdrecv else .rdlist }
  | .rdrecv =>
    { r' with
      sgdmaStateReg := if i.descWrReqSgdmaStart then .wrmem else .rdrecv
      txWrSglistIrqReg :=
        !r.txWrSglistIrqReg && (i.sglistAxis.tlast && s.dmaWrSglistFifoWren i) }
  | .wrmem =>
    if r.dmaWrSglistFifoRdenReg then
      { r' with
        sgdmaStateReg := .wrend
        dmaWrSglistFifoRdenReg := false }
    else { r' with dmaWrSglistFifoRdenReg := !s.dmaWrSglistFifoEmpty }
  | .wrend =>
    if r.descTxWrLengthReg ≤ r.sgdmaStageCountReg then
      if s.dmaWrSglistFifoEmpty then { r' with sgdmaStateReg := .idle }
      else
        { r' with
          sgdmaStateReg := .wrmem
          sgdmaStageCountReg := 0 }
    else if s.txWrReqTlpAccept i then
      { r' with sgdmaStageCountReg := (r.sgdmaStageCountReg + c.wr.busBytes) % 2 ^ 32 }
    else if r.descTxWrLengthReg = 0 then
      { r' with sgdmaStateReg := if s.dmaWrSglistFifoEmpty then .idle else .wrmem }
    else r'

/-- One rising clock edge out of reset. -/
def step : SgWrState c where
  reg := s.sgdmaNext i
  dmaWrSglistFifo := s.dmaWrSglistFifo.clock
    (if s.dmaWrSglistFifoWren i then i.sglistAxis.kept.entries else []) s.reg.dmaWrSglistFifoRdenReg
  sgdmaWr := s.sgdmaWr.step (s.engineInput i)

def reset (c : SgWrConfig) : SgWrState c where
  reg := ⟨.idle, false, 0, 0, false, 0, 0, false⟩
  dmaWrSglistFifo := BoundedQueue.empty _ _
  sgdmaWr := WrState.reset c.wr

end SgWrState

/-! ### The write side and its surroundings -/

/-- The write side with the logs of a run: the descriptors asked of the list reader, the list
beats received, the beats accepted on the stream and on the TLP port, and whether the interrupt
has been raised. -/
structure SgWrSystem (c : SgWrConfig) where
  state : SgWrState c
  requested : List (ℕ × ℕ)
  received : ℕ
  accepted : List (SAxisBeat c.wr.busBytes)
  emitted : List (WrBeat c.wr)
  irqSeen : Bool

namespace SgWrSystem

variable (x : SgWrSystem c) (i : SgWrInput c)

def step : SgWrSystem c where
  state := x.state.step i
  requested := x.requested ++ if x.state.descTxRdReqStartInit then
    [(x.state.reg.descWrReqSglistAddressReg, x.state.reg.descWrReqSglistLengthReg)] else []
  received := x.received + (x.state.dmaWrSglistFifoWren i).toNat
  accepted := x.accepted ++ if i.sAxisTlpTvalid && x.state.sAxisTlpTready then
    [i.sAxisTlp] else []
  emitted := x.emitted ++ if x.state.txWrReqTlpAccept i then [x.state.sgdmaWr.out.outReg] else []
  irqSeen := x.irqSeen || (x.state.sgdmaNext i).txWrSglistIrqReg

def run (x : SgWrSystem c) (i : ℕ → SgWrInput c) : ℕ → SgWrSystem c
  | 0 => x
  | t + 1 => (x.run i t).step (i t)

/-- The write side with empty logs. -/
def fresh (s : SgWrState c) : SgWrSystem c := ⟨s, [], 0, [], [], false⟩

/-- The list reader delivers the descriptor that it has been asked for, in order, and the transfer
is started only after the interrupt. -/
structure Legal (mem : HostMem) (x : SgWrSystem c) (i : SgWrInput c) : Prop where
  reader : i.sglistAxisTvalid = true → ∃ a l, x.requested = [(a, l)] ∧
    x.received < (l + 63) / 64 ∧ BeatOk mem a l x.received i.sglistAxis
  sgdmaStart : i.descWrReqSgdmaStart = true → x.irqSeen = true

/-- The list reader, the stream and the TLP port move again and again, and the transfer is started
some time after the interrupt. -/
structure Fair (x : SgWrSystem c) (i : ℕ → SgWrInput c) : Prop where
  delivered : ∀ t a l, (x.run i t).requested = [(a, l)] → (x.run i t).received < (l + 63) / 64 →
    ∃ u, t ≤ u ∧ (i u).sglistAxisTvalid = true
  started : ∀ t, (x.run i t).irqSeen = true → ∃ u, t ≤ u ∧ (i u).descWrReqSgdmaStart = true
  offered : ∀ t, ∃ u, t ≤ u ∧ (i u).sAxisTlpTvalid = true
  accepted : ∀ t, ∃ u, t ≤ u ∧ (i u).txWrReqTlpReady = true

end SgWrSystem

/-- The stream is shut: no beat is accepted although the engine may still be ready. -/
def WrState.Shut {c : WrConfig} (s : WrState c) : Prop :=
  s.reg.sAxisTlpTreadyReg = true → s.txWrReqTlpDone = true

/-- The write side between two lists. -/
structure SgWrState.Quiet (s : SgWrState c) : Prop where
  idle : s.reg.sgdmaStateReg = .idle
  rden : s.reg.dmaWrSglistFifoRdenReg = false
  fifo : s.dmaWrSglistFifo.words = []
  engine : s.sgdmaWr.Quiet
  shut : s.sgdmaWr.Shut

lemma sgWrReset_quiet (c : SgWrConfig) : (SgWrState.reset c).Quiet :=
  ⟨rfl, rfl, rfl, wrReset_quiet c.wr, nofun⟩

/-- The inputs start one list, with a rising edge in cycle 0. -/
structure WrListStartsOnce (i : ℕ → SgWrInput c) (address n : ℕ) : Prop where
  rise : (i 0).descWrReqSglistStart = true
  address : (i 0).descWrReqSglistAddress = address
  length : (i 0).descWrReqSglistLength = 16 * n
  once : ∀ t, (i (t + 1)).descWrReqSglistStart = true → (i t).descWrReqSglistStart = true

end FpgaPcie
