import FpgaPcie.Lib.BoundedQueue
import FpgaPcie.Rtl.Stream
import FpgaPcie.Rtl.Tlp

/-!
# The read engine `dma_if_pcie_axis_rd_v1`

One clock edge of the read engine, block by block: the request FSM that cuts a descriptor
into MRd requests, the tag allocator with its FIFO and beat-count table, the receive FSM
that sorts completion beats into one data FIFO per tag, and the output FSM that empties the
data FIFOs in tag order into the output FIFO. Registers that drive nothing are left out.
-/

namespace FpgaPcie

/-- The parameters and static inputs of a read engine: the data bus has `2 ^ offsetWidth`
bytes and there are `2 ^ pcieTagWidth` tags. -/
structure RdConfig where
  offsetWidth : ℕ
  pcieTagWidth : ℕ
  requesterId : ℕ
  maxReadPayloadSize : ℕ
  pcieTagWidth_le : pcieTagWidth ≤ 8
  maxReadPayloadSize_lt : maxReadPayloadSize < 8

/-- Tags of five bits and requests of 512 bytes, the setting of the runs below. -/
lemma tagWidth_five : 5 ≤ 8 := by decide

lemma payloadSize_two : 2 < 8 := by decide

abbrev RdConfig.busBytes (c : RdConfig) : ℕ := 2 ^ c.offsetWidth

structure RdInput (c : RdConfig) where
  descTxRdReqStart : Bool
  descTxRdReqLength : ℕ
  descTxRdReqAddress : ℕ
  txRdReqTlpReady : Bool
  rxCplTlpValid : Bool
  rxCplTlpHdr : BitVec 128
  rxCplTlpData : Bytes c.busBytes
  mAxisTlpTready : Bool

inductive ReqState
  | idle
  | start
  deriving DecidableEq

inductive RecvState
  | idle
  | start
  deriving DecidableEq

inductive TrState
  | idle
  | start
  deriving DecidableEq

structure ReqReg where
  reqStateReg : ReqState
  descTxRdReqAddressReg : ℕ
  descTxRdReqLengthReg : ℕ
  descTxRdReqStartReg : Bool
  trCycleReg : ℕ
  opCycleReg : ℕ
  byteCycleReg : ℕ
  tagIdxLengthReg : ℕ
  tagValidReg : Bool
  tlpAddressReg : ℕ
  txRdReqTlpHdrReg : TlpHdr
  txRdReqTlpValidReg : Bool

/-- The tag allocator: the pulses of `op_tag_fifo`, the FIFO itself and the beat counts of
`tag_table_info`. -/
structure TagReg (c : RdConfig) where
  opTagFifoWe : Bool
  opTagFifoWrTag : ℕ
  opTagFifoRd : Bool
  opTagFifoRdptr : ℕ
  tagTableInfo : ℕ → ℕ
  opTagFifo : BoundedQueue ℕ (2 ^ c.pcieTagWidth)

structure RecvReg (c : RdConfig) where
  recvStateReg : RecvState
  rxCplTlpReadyReg : Bool
  cplTrCycleReg : ℕ
  cplOpCycleReg : ℕ
  txRdReqIrqReg : Bool
  cpldDataFifoWrEnReg : ℕ → Bool
  cpldDataFifoDinReg : ℕ → Bytes c.busBytes

structure TrReg where
  trStateReg : TrState
  outputCycleReg : ℕ
  cycleReg : ℕ
  cpldDataFifoRdEnReg : ℕ → Bool

/-- `CPLD_FIFO_DEPTH = 4`: each data FIFO has sixteen words. -/
abbrev CpldFifo (c : RdConfig) := BoundedQueue (Bytes c.busBytes) 16

structure RdState (c : RdConfig) where
  req : ReqReg
  tag : TagReg c
  recv : RecvReg c
  cpldDataFifo : ℕ → CpldFifo c
  tr : TrReg
  out : OutFifo (AxisBeat c.busBytes)

def outputFifoAddrWidthRd : ℕ := 6

variable (c : RdConfig)

/-! ### Request FSM -/

/-- `mrrs_shift`: the base-two logarithm of the maximum read request size. -/
def mrrsShift : ℕ := 7 + c.maxReadPayloadSize

/-- The number of requests of a descriptor. -/
def trCycleNext (length : ℕ) : ℕ :=
  (length >>> mrrsShift c + if length &&& (1 <<< mrrsShift c - 1) = 0 then 0 else 1) % 2 ^ 32

/-- `op_cycle_reg == tr_cycle_reg - 1`: the request being built is the last one. -/
def ReqReg.lastRequest (r : ReqReg) : Bool :=
  r.opCycleReg == (r.trCycleReg + (2 ^ 32 - 1)) % 2 ^ 32

/-- The length field of a request in DWs. -/
def tagIdxLengthNext (r : ReqReg) : ℕ :=
  let length := r.descTxRdReqLengthReg
  if r.lastRequest then
    let ragged := if length % 2 ^ 2 = 0 then 0 else 1
    match c.maxReadPayloadSize with
    | 0 => if length % 2 ^ 7 = 0 then 32 else (length % 2 ^ 7 / 2 ^ 2 + ragged) % 2 ^ 10
    | 1 => if length % 2 ^ 8 = 0 then 64 else (length % 2 ^ 8 / 2 ^ 2 + ragged) % 2 ^ 10
    | 2 => if length % 2 ^ 9 = 0 then 128 else (length % 2 ^ 9 / 2 ^ 2 + ragged) % 2 ^ 10
    | 3 => if length % 2 ^ 10 = 0 then 256 else (length % 2 ^ 10 / 2 ^ 2 + ragged) % 2 ^ 10
    | _ => r.tagIdxLengthReg
  else ((2 ^ c.offsetWidth >>> 2) <<< ((5 + 8 - c.maxReadPayloadSize) % 8)) % 2 ^ 10

/-- The beats of a full request, truncated to the four bits of `byte_cycle_reg`. -/
def fullByteCycle : ℕ := (128 <<< c.maxReadPayloadSize % 2 ^ 32) >>> c.offsetWidth % 2 ^ 4

/-- The beat count of a request, stored in `tag_table_info` when its tag is allocated. -/
def byteCycleNext (r : ReqReg) : ℕ :=
  let length := r.descTxRdReqLengthReg
  if r.lastRequest then
    let ragged := if length % 2 ^ c.offsetWidth = 0 then 0 else 1
    let cycles := match c.maxReadPayloadSize with
      -- the slice is the single bit `[OFFSET_WIDTH:OFFSET_WIDTH]`
      | 0 => (length / 2 ^ c.offsetWidth % 2 + ragged) % 2 ^ 4
      | 1 => (length % 2 ^ 8 / 2 ^ c.offsetWidth + ragged) % 2 ^ 4
      | 2 => (length % 2 ^ 9 / 2 ^ c.offsetWidth + ragged) % 2 ^ 4
      | 3 => (length % 2 ^ 10 / 2 ^ c.offsetWidth + ragged) % 2 ^ 4
      | _ => r.byteCycleReg
    if cycles = 0 then fullByteCycle c else cycles
  else fullByteCycle c

/-- The MRd header of the request under construction. -/
def mrdHdr (r : ReqReg) (opTagFifoWrTag : ℕ) : TlpHdr :=
  let length := tagIdxLengthNext c r
  let reqFirstBe := firstByteEnable r.descTxRdReqAddressReg
  let reqLastBe := lastByteEnable r.descTxRdReqAddressReg
    (if r.lastRequest then r.descTxRdReqLengthReg % 4 else 0)
  { fmt := tlpFmt4dw
    type := 0
    length := length
    requesterId := c.requesterId
    tag := opTagFifoWrTag
    lastBe := if length = 1 then 0 else reqLastBe
    firstBe := if length = 1 then reqFirstBe &&& reqLastBe else reqFirstBe
    address := r.tlpAddressReg / 4 }

/-- The `_next` values of the request FSM, as the registers they are loaded into. -/
def reqNext (r : ReqReg) (i : RdInput c) (opTagFifoWe : Bool) (opTagFifoWrTag : ℕ) : ReqReg :=
  match r.reqStateReg with
  | .idle =>
    let r' := { r with
      opCycleReg := 0
      trCycleReg := 0
      byteCycleReg := 0
      tagValidReg := false
      descTxRdReqStartReg := i.descTxRdReqStart
      txRdReqTlpValidReg := false
      txRdReqTlpHdrReg := TlpHdr.zero }
    if i.descTxRdReqStart && !r.descTxRdReqStartReg then
      { r' with
        descTxRdReqLengthReg := i.descTxRdReqLength
        descTxRdReqAddressReg := i.descTxRdReqAddress
        trCycleReg := trCycleNext c i.descTxRdReqLength
        tlpAddressReg := i.descTxRdReqAddress
        reqStateReg := .start }
    else r'
  | .start =>
    let r' := { r with
      tagValidReg := true
      descTxRdReqStartReg := false
      txRdReqTlpValidReg := false
      txRdReqTlpHdrReg := TlpHdr.zero }
    if i.txRdReqTlpReady && r.txRdReqTlpValidReg then
      let opCycleNext := (r.opCycleReg + 1) % 2 ^ 32
      { r' with
        opCycleReg := opCycleNext
        tlpAddressReg := (r.tlpAddressReg + 128 <<< c.maxReadPayloadSize % 2 ^ 32) % 2 ^ 64
        tagValidReg := false
        reqStateReg := if opCycleNext = r.trCycleReg then .idle else .start }
    else if opTagFifoWe then
      { r' with
        txRdReqTlpValidReg := true
        tagValidReg := false
        byteCycleReg := byteCycleNext c r
        tagIdxLengthReg := tagIdxLengthNext c r
        txRdReqTlpHdrReg := mrdHdr c r opTagFifoWrTag }
    else r'

/-! ### Output FSM -/

/-- The beats of a descriptor. -/
def beatCycles (length : ℕ) : ℕ :=
  (length / 2 ^ c.offsetWidth + if length % 2 ^ c.offsetWidth = 0 then 0 else 1) % 2 ^ 32

/-- The byte mask of the last beat of a descriptor. -/
def axisTkeepInit (length : ℕ) : Fin c.busBytes → Bool := fun j =>
  if length % 2 ^ c.offsetWidth = 0 then true
  else Nat.testBit (1 <<< (length % 2 ^ c.offsetWidth) - 1) j

variable {c}

/-- A word is read from the data FIFO of the tag at the read pointer. -/
def RdState.emit (s : RdState c) : Bool :=
  s.tr.trStateReg == .start && s.tr.cpldDataFifoRdEnReg s.tag.opTagFifoRdptr &&
    !(s.cpldDataFifo s.tag.opTagFifoRdptr).words.isEmpty

def RdState.cycleNext (s : RdState c) : ℕ :=
  match s.tr.trStateReg with
  | .idle => 0
  | .start => if s.emit then (s.tr.cycleReg + 1) % 2 ^ 8 else s.tr.cycleReg

/-- `output_cycle_next`; `lengthNext` is `desc_tx_rd_req_length_next` of the request FSM. -/
def RdState.outputCycleNext (s : RdState c) (i : RdInput c) (lengthNext : ℕ) : ℕ :=
  match s.tr.trStateReg with
  | .idle =>
    if i.descTxRdReqStart && !s.req.descTxRdReqStartReg then beatCycles c lengthNext else 0
  | .start =>
    if s.emit then (s.tr.outputCycleReg + (2 ^ 32 - 1)) % 2 ^ 32 else s.tr.outputCycleReg

def trStateNext (s : RdState c) (i : RdInput c) (lengthNext : ℕ) : TrState :=
  match s.tr.trStateReg with
  | .idle => if i.descTxRdReqStart && !s.req.descTxRdReqStartReg then .start else .idle
  | .start => if s.outputCycleNext i lengthNext = 0 then .idle else .start

def rdEnNext (s : RdState c) : ℕ → Bool := fun t =>
  match s.tr.trStateReg with
  | .idle => false
  | .start => t == s.tag.opTagFifoRdptr && (!s.out.outFifoHalfFullReg &&
      !(s.cpldDataFifo s.tag.opTagFifoRdptr).words.isEmpty)

def trStep (s : RdState c) (i : RdInput c) (lengthNext : ℕ) : TrReg where
  trStateReg := trStateNext s i lengthNext
  outputCycleReg := s.outputCycleNext i lengthNext
  cycleReg := if s.cycleNext = s.tag.tagTableInfo s.tag.opTagFifoRdptr then 0 else s.cycleNext
  cpldDataFifoRdEnReg := rdEnNext s

/-- The beat presented to the output FIFO when `emit` holds. -/
def axisInit (s : RdState c) (i : RdInput c) (lengthNext : ℕ) : AxisBeat c.busBytes where
  tdata := ((s.cpldDataFifo s.tag.opTagFifoRdptr).words.head?).getD fun _ => 0
  tkeep := if s.outputCycleNext i lengthNext = 0 then axisTkeepInit c s.req.descTxRdReqLengthReg
    else fun _ => true
  tlast := s.outputCycleNext i lengthNext == 0

/-! ### Tag allocator -/

def tagStep (s : RdState c) (reqNext : ReqReg) : TagReg c where
  opTagFifoWe := if s.tag.opTagFifoWe then false
    else reqNext.tagValidReg && decide (s.tag.opTagFifo.words.length < 2 ^ c.pcieTagWidth)
  opTagFifoWrTag := if s.req.reqStateReg = .idle then 0
    else if s.tag.opTagFifoWe then (s.tag.opTagFifoWrTag + 1) % 2 ^ c.pcieTagWidth
    else s.tag.opTagFifoWrTag
  opTagFifoRd := if s.req.reqStateReg = .idle ∧ s.req.reqStateReg ≠ reqNext.reqStateReg then
      s.tag.opTagFifoRd
    else if s.tag.opTagFifoRd then false
    else s.tr.cpldDataFifoRdEnReg s.tag.opTagFifoRdptr &&
      decide (s.cycleNext = s.tag.tagTableInfo s.tag.opTagFifoRdptr)
  opTagFifoRdptr := if s.req.reqStateReg = .idle ∧ s.req.reqStateReg ≠ reqNext.reqStateReg then 0
    else if s.tag.opTagFifoRd then (s.tag.opTagFifoRdptr + 1) % 2 ^ c.pcieTagWidth
    else s.tag.opTagFifoRdptr
  -- the clearing assignment comes second and wins
  tagTableInfo := fun t =>
    if s.tag.opTagFifoRd ∧ t = s.tag.opTagFifoRdptr then 0
    else if s.tag.opTagFifoWe ∧ t = s.tag.opTagFifoWrTag then reqNext.byteCycleReg
    else s.tag.tagTableInfo t
  opTagFifo := s.tag.opTagFifo.clock
    (if s.tag.opTagFifoWe then [s.tag.opTagFifoWrTag] else []) s.tag.opTagFifoRd

/-! ### Receive FSM -/

/-- A completion beat is accepted. -/
def RdState.cplAccept (s : RdState c) (i : RdInput c) : Bool :=
  i.rxCplTlpValid && s.recv.rxCplTlpReadyReg

def RdState.cplOpCycleNext (s : RdState c) (i : RdInput c) : ℕ :=
  match s.recv.recvStateReg with
  | .idle => 0
  | .start => if s.cplAccept i then (s.recv.cplOpCycleReg + 1) % 2 ^ 32 else s.recv.cplOpCycleReg

/-- The beat that completes the transfer is accepted. -/
def RdState.cplLast (s : RdState c) (i : RdInput c) : Bool :=
  s.recv.recvStateReg == .start && s.cplAccept i &&
    decide (s.cplOpCycleNext i = s.recv.cplTrCycleReg)

/-- The accepted beat goes to the data FIFO of this tag. -/
def RdState.stores (s : RdState c) (i : RdInput c) (tag : ℕ) : Bool :=
  s.recv.recvStateReg == .start && s.cplAccept i &&
    tag == rxCplTlpHdrTag i.rxCplTlpHdr % 2 ^ c.pcieTagWidth

def recvStart (s : RdState c) (reqNext : ReqReg) : Bool :=
  s.recv.recvStateReg == .idle && (s.req.descTxRdReqStartReg && !reqNext.descTxRdReqStartReg)

def recvStep (s : RdState c) (i : RdInput c) (reqNext : ReqReg) : RecvReg c where
  recvStateReg := match s.recv.recvStateReg with
    | .idle => if recvStart s reqNext then .start else .idle
    | .start => if s.cplLast i then .idle else .start
  rxCplTlpReadyReg := match s.recv.recvStateReg with
    | .idle => false
    | .start => true
  cplTrCycleReg := match s.recv.recvStateReg with
    | .idle => if recvStart s reqNext then beatCycles c reqNext.descTxRdReqLengthReg else 0
    | .start => s.recv.cplTrCycleReg
  cplOpCycleReg := s.cplOpCycleNext i
  txRdReqIrqReg := s.cplLast i
  cpldDataFifoWrEnReg := fun t => s.stores i t
  cpldDataFifoDinReg := fun t => if s.stores i t then i.rxCplTlpData else fun _ => 0

/-! ### The engine -/

def cpldFifoStep (s : RdState c) : ℕ → CpldFifo c := fun t =>
  (s.cpldDataFifo t).clock
    (if s.recv.cpldDataFifoWrEnReg t then [s.recv.cpldDataFifoDinReg t] else [])
    (s.tr.cpldDataFifoRdEnReg t)

/-- One rising clock edge out of reset. -/
def rdStep (s : RdState c) (i : RdInput c) : RdState c :=
  let req := reqNext c s.req i s.tag.opTagFifoWe s.tag.opTagFifoWrTag
  { req := req
    tag := tagStep s req
    recv := recvStep s i req
    cpldDataFifo := cpldFifoStep s
    tr := trStep s i req.descTxRdReqLengthReg
    out := s.out.step outputFifoAddrWidthRd s.emit
      (axisInit s i req.descTxRdReqLengthReg) i.mAxisTlpTready }

def rdReset (c : RdConfig) : RdState c where
  req := ⟨.idle, 0, 0, false, 0, 0, 0, 0, false, 0, TlpHdr.zero, false⟩
  tag := ⟨false, 0, false, 0, fun _ => 0, BoundedQueue.empty _ _⟩
  recv := ⟨.idle, false, 0, 0, false, fun _ => false, fun _ _ => 0⟩
  cpldDataFifo := fun _ => BoundedQueue.empty _ _
  tr := ⟨.idle, 0, 0, fun _ => false⟩
  out := OutFifo.reset ⟨fun _ => 0, fun _ => false, false⟩

/-- The states of the engine from `s₀` on, clocked with the inputs `i`. -/
def rdRun (s₀ : RdState c) (i : ℕ → RdInput c) : ℕ → RdState c
  | 0 => s₀
  | t + 1 => rdStep (rdRun s₀ i t) (i t)

end FpgaPcie
