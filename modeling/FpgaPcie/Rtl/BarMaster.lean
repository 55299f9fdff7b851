import FpgaPcie.Rtl.BarRegister

/-!
# From request TLPs to register accesses

`pcie_axil_tobar_master`: a state machine turns each memory request into one AXI4-Lite access to the
register file and each read into a completion.
-/

namespace FpgaPcie

/-- A request TLP: `rx_req_tlp_hdr` and the first DW of `rx_req_tlp_data`. -/
structure BarTlp where
  hdr : BitVec 128
  data : BitVec 32
  deriving DecidableEq

namespace BarTlp

variable (r : BarTlp)

def fmt : BitVec 3 := r.hdr.extractLsb' 125 3

def requesterId : BitVec 16 := r.hdr.extractLsb' 80 16

def tag : BitVec 8 := r.hdr.extractLsb' 72 8

def address : BitVec 64 := r.hdr.extractLsb' 0 64

end BarTlp

def tlpFmt3dwDataBits : BitVec 3 := 0b010
def tlpFmt4dwBits : BitVec 3 := 0b001
def tlpFmt4dwDataBits : BitVec 3 := 0b011

/-- The header of a completion with one DW of data. -/
def cplHdr (requesterId : BitVec 16) (tag : BitVec 8) (address : BitVec 64) : BitVec 128 :=
  tlpFmt3dwDataBits ++ 0b01010#5 ++ 0#1 ++ 0#3 ++ 0#1 ++ 0#1 ++ 0#4 ++ 0#2 ++ 0#2 ++ 1#10 ++
    0#16 ++ 0#3 ++ 0#1 ++ 4#12 ++
    requesterId ++ tag ++ 0#1 ++ address.extractLsb' 0 7 ++ 0#32

/-- `M_BAR_IDLE` to `MRD_BAR_RDATA` -/
inductive BarState
  | idle | wAddr | wData | wEnd | rAddr | rData
  deriving DecidableEq

/-- The inputs of one cycle. -/
structure BarInput where
  rxReqTlp : Option BarTlp
  txCplTlpReady : Bool
  status : BarChannel → BitVec 32

/-- The registers of `pcie_axil_tobar_master`; `axil` holds `m_axil_bar_*`. -/
structure BarMaster where
  rxReqTlpReadyReg : Bool
  mState : BarState
  requesterId : BitVec 16
  requesterTag : BitVec 8
  requesterAddr : BitVec 64
  axil : AxilMaster
  barRegister : BarRegister
  txCplTlpValidReg : Bool
  txCplTlpHdrReg : BitVec 128
  txCplTlpDataReg : BitVec 32

namespace BarMaster

variable (s : BarMaster) (i : BarInput)

def reset : BarMaster where
  rxReqTlpReadyReg := false
  mState := .idle
  requesterId := 0
  requesterTag := 0
  requesterAddr := 0
  axil := ⟨0, false, 0, 0, false, false, 0, false, false⟩
  barRegister := .reset
  txCplTlpValidReg := false
  txCplTlpHdrReg := 0
  txCplTlpDataReg := 0

/-- The TLP that is accepted in this cycle. -/
def accepted : Option BarTlp := if s.rxReqTlpReadyReg then i.rxReqTlp else none

def mNextState : BarState :=
  match s.mState with
  | .idle =>
    match s.accepted i with
    | some r =>
      if r.fmt = tlpFmt4dwBits then .rAddr
      else if r.fmt = tlpFmt4dwDataBits then .wAddr
      else .idle
    | none => .idle
  | .wAddr => if s.axil.awvalid && s.barRegister.axiAwready then .wData else .wAddr
  | .wData => if s.axil.wvalid && s.barRegister.axiWready then .wEnd else .wData
  | .wEnd => if s.barRegister.axiBvalid && s.axil.bready then .idle else .wEnd
  | .rAddr => if s.axil.arvalid && s.barRegister.axiArready then .rData else .rAddr
  | .rData => if s.barRegister.axiRvalid && s.axil.rready then .idle else .rData

/-- `m_state == MRD_BAR_RDATA && (m_state != m_next_state)` -/
def readDone : Bool := s.mState == .rData && s.mState != s.mNextState i

/-- A register that is cleared, else set, else kept. -/
def flagNext (clear set old : Bool) : Bool := if clear then false else if set then true else old

/-- `{25'b0, requester_addr[7:0]}` on 32 wires. -/
def barAddr : BitVec 32 := (s.requesterAddr.extractLsb' 0 8).setWidth 32

def axilNext : AxilMaster where
  awaddr := if s.mState = .wAddr then s.barAddr else s.axil.awaddr
  awvalid := flagNext (s.axil.awvalid && s.barRegister.axiAwready) (s.mState == .wAddr)
    s.axil.awvalid
  wdata := match s.accepted i with
    | some r => r.data
    | none => s.axil.wdata
  wstrb := if (s.accepted i).isSome then 0xf else s.axil.wstrb
  wvalid := flagNext (s.axil.wvalid && s.barRegister.axiWready) (s.mState == .wData)
    s.axil.wvalid
  bready := flagNext (s.barRegister.axiBvalid && s.axil.bready) s.barRegister.axiBvalid
    s.axil.bready
  araddr := if s.mState = .rAddr then s.barAddr else s.axil.araddr
  arvalid := flagNext (s.axil.arvalid && s.barRegister.axiArready) (s.mState == .rAddr)
    s.axil.arvalid
  rready := flagNext (s.barRegister.axiRvalid && s.axil.rready) s.barRegister.axiRvalid
    s.axil.rready

def clock : BarMaster where
  rxReqTlpReadyReg := flagNext (s.rxReqTlpReadyReg && i.rxReqTlp.isSome)
    (i.rxReqTlp.isSome && s.mState == .idle) s.rxReqTlpReadyReg
  mState := s.mNextState i
  requesterId := match s.accepted i with
    | some r => r.requesterId
    | none => s.requesterId
  requesterTag := match s.accepted i with
    | some r => r.tag
    | none => s.requesterTag
  requesterAddr := match s.accepted i with
    | some r => r.address
    | none => s.requesterAddr
  axil := s.axilNext i
  barRegister := s.barRegister.clock s.axil i.status
  txCplTlpValidReg := flagNext (i.txCplTlpReady && s.txCplTlpValidReg) (s.readDone i)
    s.txCplTlpValidReg
  txCplTlpHdrReg := if s.readDone i then cplHdr s.requesterId s.requesterTag s.requesterAddr
    else s.txCplTlpHdrReg
  txCplTlpDataReg := if s.readDone i then s.barRegister.axiRdata else s.txCplTlpDataReg

end BarMaster

end FpgaPcie
