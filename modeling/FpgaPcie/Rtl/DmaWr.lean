import FpgaPcie.Rtl.Stream
import FpgaPcie.Rtl.Tlp

/-!
# The write engine `dma_if_pcie_axis_wr_v1`

One clock edge of the write engine: the request FSM that frames the beats of the stream into
MWr TLPs, the output FIFO behind it, and the byte counter that tells when the descriptor is
complete. Registers that drive nothing are left out.
-/

namespace FpgaPcie

/-- The parameters and static inputs of a write engine: the data bus has `2 ^ offsetWidth`
bytes. -/
structure WrConfig where
  offsetWidth : ℕ
  txSeqNumWidth : ℕ
  requesterId : ℕ
  maxPayloadSize : ℕ
  offsetWidth_le : offsetWidth ≤ 6
  maxPayloadSize_lt : maxPayloadSize < 8

abbrev WrConfig.busBytes (c : WrConfig) : ℕ := 2 ^ c.offsetWidth

/-- One beat of a write request, with its DW strobes. -/
structure WrBeat (c : WrConfig) where
  txWrReqTlpData : Bytes c.busBytes
  txWrReqTlpStrb : ℕ → Bool
  txWrReqTlpHdr : TlpHdr
  txWrReqTlpSeq : ℕ
  txWrReqTlpSop : Bool
  txWrReqTlpEop : Bool

/-- A beat of the stream as the write engine reads it. -/
structure SAxisBeat (n : ℕ) where
  tdata : Bytes n
  tkeep : Fin n → Bool

structure WrInput (c : WrConfig) where
  descWrReqLength : ℕ
  descWrReqAddress : ℕ
  descWrReqStart : Bool
  txWrReqTlpReady : Bool
  sAxisTlp : SAxisBeat c.busBytes
  sAxisTlpTvalid : Bool

inductive WrReqState
  | idle
  | start
  deriving DecidableEq

structure WrReg where
  reqStateReg : WrReqState
  sAxisTlpTreadyReg : Bool
  cycleReg : ℕ
  opCycleReg : ℕ
  trCycleReg : ℕ
  descWrReqAddressReg : ℕ
  descWrReqLengthReg : ℕ
  descWrReqStartReg : Bool
  txWrReqLengthReg : ℕ
  txWrReqAddrReg : ℕ
  trBytesReg : ℕ

structure WrState (c : WrConfig) where
  reg : WrReg
  out : OutFifo (WrBeat c)

def outputFifoAddrWidthWr : ℕ := 5

variable (c : WrConfig)

/-! ### The formulas of the request FSM -/

/-- The beats of a descriptor. -/
def wrCycleNext (length : ℕ) : ℕ :=
  (length / 2 ^ c.offsetWidth + if length % 2 ^ c.offsetWidth = 0 then 0 else 1) % 2 ^ 32

/-- The TLPs of a descriptor. -/
def wrTrCycleNext (length : ℕ) : ℕ :=
  match c.maxPayloadSize with
  | 0 => length / 2 ^ 7 + if length % 2 ^ 7 = 0 then 0 else 1
  | 1 => length / 2 ^ 8 + if length % 2 ^ 8 = 0 then 0 else 1
  | 2 => length / 2 ^ 9 + if length % 2 ^ 9 = 0 then 0 else 1
  | 3 => length / 2 ^ 10 + if length % 2 ^ 10 = 0 then 0 else 1
  | _ => 0

/-- `tx_wr_req_tlp_sop_init`, from `op_cycle_next`. -/
def sopInit (opCycleNext : ℕ) : Bool :=
  decide (c.maxPayloadSize ≤ 3) &&
    opCycleNext % 2 ^ (7 + c.maxPayloadSize - c.offsetWidth) == 1

/-- `tx_wr_req_tlp_eop_init`, from `op_cycle_next`. -/
def eopInit (cycleReg opCycleNext : ℕ) : Bool :=
  decide (c.maxPayloadSize ≤ 3) &&
    (opCycleNext % 2 ^ (7 + c.maxPayloadSize - c.offsetWidth) == 0 &&
        opCycleNext / 2 ^ (7 + c.maxPayloadSize - c.offsetWidth) != 0 ||
      opCycleNext == cycleReg)

/-- `tx_wr_req_tlp_seq_init`: the number of the TLP. -/
def seqInit (opCycleReg : ℕ) : ℕ :=
  if c.maxPayloadSize ≤ 3 then
    opCycleReg / 2 ^ (7 + c.maxPayloadSize - c.offsetWidth) % 2 ^ c.txSeqNumWidth
  else 0

/-- `tx_wr_req_tlp_strb_init`: the DWs with a byte to keep. -/
def strbInit (tkeep : Fin c.busBytes → Bool) (i : ℕ) : Bool :=
  decide (c.maxPayloadSize ≤ 3) && decide (∃ j : Fin c.busBytes, j / 4 = i ∧ tkeep j = true)

/-- `tx_wr_req_length_next` when a beat is accepted: the length field in DWs. The branch for
1024-byte payloads writes zero for a full TLP. -/
def txWrReqLengthNext (r : WrReg) : ℕ :=
  let full := ((128 <<< c.maxPayloadSize) % 2 ^ 10) >>> 2
  let length := r.descWrReqLengthReg
  let ragged := if length % 2 ^ 2 = 0 then 0 else 1
  if 1 < r.trCycleReg then
    match c.maxPayloadSize with
    | 0 | 1 | 2 => full
    | 3 => 0
    | _ => r.txWrReqLengthReg
  else if r.trCycleReg = 1 then
    match c.maxPayloadSize with
    | 0 => if length % 2 ^ 7 / 2 ^ 2 + ragged = 0 then full else length % 2 ^ 7 / 2 ^ 2 + ragged
    | 1 => if length % 2 ^ 8 / 2 ^ 2 + ragged = 0 then full else length % 2 ^ 8 / 2 ^ 2 + ragged
    | 2 => if length % 2 ^ 9 / 2 ^ 2 + ragged = 0 then full else length % 2 ^ 9 / 2 ^ 2 + ragged
    | 3 => length % 2 ^ 10 / 2 ^ 2 + ragged
    | _ => r.txWrReqLengthReg
  else r.txWrReqLengthReg

/-- The MWr header of the beat on the stream. -/
def mwrHdr (r : WrReg) : TlpHdr :=
  let length := txWrReqLengthNext c r
  let firstBe := firstByteEnable r.descWrReqAddressReg
  let lastBe := lastByteEnable r.descWrReqAddressReg
    (if r.trCycleReg = 1 then r.descWrReqLengthReg % 4 else 0)
  { fmt := tlpFmt4dwData
    type := 0
    length := length
    requesterId := c.requesterId
    tag := 0
    lastBe := if length = 1 then 0 else lastBe
    firstBe := if length = 1 then firstBe &&& lastBe else firstBe
    address := r.txWrReqAddrReg / 4 }

variable {c}

namespace WrState

variable (s : WrState c) (i : WrInput c)

/-! ### Request FSM -/

/-- A beat is accepted: `s_axis_tlp_tvalid && s_axis_tlp_tready`. -/
def sAxisAccept : Bool := i.sAxisTlpTvalid && s.reg.sAxisTlpTreadyReg

/-- The accepted beat goes to the output FIFO, `tx_wr_req_tlp_valid_init`. -/
def validInit : Bool := s.reg.reqStateReg == .start && s.sAxisAccept i

def opCycleNext : ℕ :=
  match s.reg.reqStateReg with
  | .idle => 0
  | .start => if s.sAxisAccept i then (s.reg.opCycleReg + 1) % 2 ^ 32 else s.reg.opCycleReg

/-- The beat for the output FIFO, when `validInit` holds. -/
def wrBeatInit : WrBeat c where
  txWrReqTlpData := i.sAxisTlp.tdata
  txWrReqTlpStrb := strbInit c i.sAxisTlp.tkeep
  txWrReqTlpHdr := mwrHdr c s.reg
  txWrReqTlpSeq := seqInit c s.reg.opCycleReg
  txWrReqTlpSop := sopInit c (s.opCycleNext i)
  txWrReqTlpEop := eopInit c s.reg.cycleReg (s.opCycleNext i)

/-- The accepted beat is the last one of a TLP. -/
def endsTlp : Bool := s.validInit i && eopInit c s.reg.cycleReg (s.opCycleNext i)

/-- `tr_bytes_next`. -/
def trBytesNext : ℕ :=
  if i.descWrReqStart then 0
  else if s.sAxisAccept i then (s.reg.trBytesReg + c.busBytes) % 2 ^ 32
  else s.reg.trBytesReg

/-- `tx_wr_req_tlp_done`: the descriptor's beats have been accepted. -/
def txWrReqTlpDone : Bool :=
  decide (s.reg.descWrReqLengthReg ≤ s.reg.trBytesReg) && s.reg.trBytesReg != 0

/-- The `_next` values of the request FSM, as the registers they are loaded into. -/
def wrNext : WrReg :=
  let r' := { s.reg with
    descWrReqStartReg := i.descWrReqStart
    trBytesReg := s.trBytesNext i }
  match s.reg.reqStateReg with
  | .idle =>
    if i.descWrReqStart && !s.reg.descWrReqStartReg then
      { r' with
        reqStateReg := .start
        sAxisTlpTreadyReg := false
        cycleReg := wrCycleNext c i.descWrReqLength
        opCycleReg := 0
        trCycleReg := wrTrCycleNext c i.descWrReqLength
        descWrReqLengthReg := i.descWrReqLength
        txWrReqAddrReg := i.descWrReqAddress }
    else
      { r' with
        sAxisTlpTreadyReg := false
        cycleReg := 0
        opCycleReg := 0
        trCycleReg := 0 }
  | .start =>
    { r' with
      reqStateReg := if s.opCycleNext i = s.reg.cycleReg then .idle else .start
      sAxisTlpTreadyReg := !s.out.outFifoHalfFullReg
      opCycleReg := s.opCycleNext i
      trCycleReg := if s.endsTlp i then (s.reg.trCycleReg + (2 ^ 32 - 1)) % 2 ^ 32
        else s.reg.trCycleReg
      txWrReqLengthReg := if s.sAxisAccept i then txWrReqLengthNext c s.reg
        else s.reg.txWrReqLengthReg
      txWrReqAddrReg := if s.endsTlp i then
          (s.reg.txWrReqAddrReg + 2 ^ (7 + c.maxPayloadSize)) % 2 ^ 64
        else s.reg.txWrReqAddrReg }

/-- One rising clock edge out of reset. -/
def step : WrState c where
  reg := s.wrNext i
  out := s.out.step outputFifoAddrWidthWr (s.validInit i) (s.wrBeatInit i) i.txWrReqTlpReady

def reset (c : WrConfig) : WrState c where
  reg := ⟨.idle, false, 0, 0, 0, 0, 0, false, 0, 0, 0⟩
  out := OutFifo.reset ⟨fun _ => 0, fun _ => false, TlpHdr.zero, 0, false, false⟩

end WrState

end FpgaPcie
