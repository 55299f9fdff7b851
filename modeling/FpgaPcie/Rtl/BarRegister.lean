import Mathlib.Data.BitVec
import Mathlib.Logic.Function.Basic
import Mathlib.Tactic

/-!
# The BAR register file

`pcie_bar_register`: an AXI4-Lite slave with 64 registers. Four of them read back a latched hardware
status, writes to four others start a transfer, and the rest configure the DMA channels.
-/

namespace FpgaPcie

inductive BarChannel
  | c2hBlock | h2cBlock | c2hSg | h2cSg
  deriving DecidableEq

/-- The START outputs. -/
inductive BarStart
  | c2hBlockDma | h2cBlockDma | c2hSgList | c2hSgDma | h2cSgList | h2cSgDma
  deriving DecidableEq

/-- The AXI4-Lite wires that a master drives. -/
structure AxilMaster where
  awaddr : BitVec 32
  awvalid : Bool
  wdata : BitVec 32
  wstrb : BitVec 4
  wvalid : Bool
  bready : Bool
  araddr : BitVec 32
  arvalid : Bool
  rready : Bool

/-- The registers of `pcie_bar_register`. `aw_en` never leaves its reset value 1, and the responses
are always OKAY. -/
structure BarRegister where
  axiAwready : Bool
  axiAwaddr : BitVec 32
  axiWready : Bool
  axiBvalid : Bool
  axiArready : Bool
  axiAraddr : BitVec 32
  axiRvalid : Bool
  axiRdata : BitVec 32
  slvReg : BitVec 6 → BitVec 32
  statusReg : BarChannel → BitVec 32
  start : BarStart → Bool

/-- The configuration outputs. -/
structure BarConfig where
  c2hBlockDmaLowAddress : BitVec 32
  c2hBlockDmaHighAddress : BitVec 32
  c2hBlockDmaLength : BitVec 32
  c2hDmaSdramLowAddress : BitVec 32
  c2hDmaSdramHighAddress : BitVec 32
  h2cBlockDmaLowAddress : BitVec 32
  h2cBlockDmaHighAddress : BitVec 32
  h2cBlockDmaLength : BitVec 32
  h2cDmaSdramLowAddress : BitVec 32
  h2cDmaSdramHighAddress : BitVec 32
  c2hSgListLowAddress : BitVec 32
  c2hSgListHighAddress : BitVec 32
  c2hSgListLength : BitVec 32
  c2hSgdmaSdramLowAddress : BitVec 32
  c2hSgdmaSdramHighAddress : BitVec 32
  c2hSgDmaLength : BitVec 32
  h2cSgListLowAddress : BitVec 32
  h2cSgListHighAddress : BitVec 32
  h2cSgListLength : BitVec 32
  h2cSgdmaSdramLowAddress : BitVec 32
  h2cSgdmaSdramHighAddress : BitVec 32
  h2cSgDmaLength : BitVec 32
  deriving DecidableEq

def BarConfig.ofRegs (slvReg : BitVec 6 → BitVec 32) : BarConfig where
  c2hBlockDmaLowAddress := slvReg 0
  c2hBlockDmaHighAddress := slvReg 1
  c2hBlockDmaLength := slvReg 3
  c2hDmaSdramLowAddress := slvReg 10
  c2hDmaSdramHighAddress := slvReg 11
  h2cBlockDmaLowAddress := slvReg 4
  h2cBlockDmaHighAddress := slvReg 5
  h2cBlockDmaLength := slvReg 7
  h2cDmaSdramLowAddress := slvReg 12
  h2cDmaSdramHighAddress := slvReg 13
  c2hSgListLowAddress := slvReg 14
  c2hSgListHighAddress := slvReg 15
  c2hSgListLength := slvReg 17
  c2hSgdmaSdramLowAddress := slvReg 27
  c2hSgdmaSdramHighAddress := slvReg 26
  c2hSgDmaLength := slvReg 24
  h2cSgListLowAddress := slvReg 18
  h2cSgListHighAddress := slvReg 19
  h2cSgListLength := slvReg 21
  h2cSgdmaSdramLowAddress := slvReg 29
  h2cSgdmaSdramHighAddress := slvReg 28
  h2cSgDmaLength := slvReg 25

/-- The STARTs that are up, with the configuration outputs beside them. -/
def barPulses (start : BarStart → Bool) (slvReg : BitVec 6 → BitVec 32) :
    List (BarStart × BarConfig) :=
  ([.c2hBlockDma, .h2cBlockDma, .c2hSgList, .c2hSgDma, .h2cSgList, .h2cSgDma].filter start).map
    fun p => (p, BarConfig.ofRegs slvReg)

/-- The register that reads back the status of the channel. -/
def BarChannel.statusIndex : BarChannel → BitVec 6
  | .c2hBlock => 0x08
  | .h2cBlock => 0x09
  | .c2hSg => 0x16
  | .h2cSg => 0x17

/-- The byte lanes whose strobe is set take the new data. -/
def writeStrobes (old wdata : BitVec 32) (wstrb : BitVec 4) : BitVec 32 :=
  (if wstrb[3] then wdata.extractLsb' 24 8 else old.extractLsb' 24 8) ++
    (if wstrb[2] then wdata.extractLsb' 16 8 else old.extractLsb' 16 8) ++
    (if wstrb[1] then wdata.extractLsb' 8 8 else old.extractLsb' 8 8) ++
    (if wstrb[0] then wdata.extractLsb' 0 8 else old.extractLsb' 0 8)

/-- `addr[ADDR_LSB+OPT_MEM_ADDR_BITS:ADDR_LSB]` -/
def regIndex (addr : BitVec 32) : BitVec 6 := addr.extractLsb' 2 6

namespace BarRegister

variable (s : BarRegister) (m : AxilMaster)

def reset : BarRegister where
  axiAwready := false
  axiAwaddr := 0
  axiWready := false
  axiBvalid := false
  axiArready := false
  axiAraddr := 0
  axiRvalid := false
  axiRdata := 0
  slvReg := fun _ => 0
  statusReg := fun _ => 0
  start := fun _ => false

/-- A ready register: up for one cycle behind a valid that finds it down. -/
def readyNext (valid ready : Bool) : Bool := if valid && ready then false else !ready && valid

def slvRegWren : Bool := s.axiWready && m.wvalid

def slvRegRden : Bool := s.axiArready && m.arvalid && !s.axiRvalid

def regDataOut : BitVec 32 :=
  let index := regIndex s.axiAraddr
  if index = 0x08 then s.statusReg .c2hBlock
  else if index = 0x09 then s.statusReg .h2cBlock
  else if index = 0x16 then s.statusReg .c2hSg
  else if index = 0x17 then s.statusReg .h2cSg
  else s.slvReg index

/-- A block START is set by its address on the address channel. -/
def blockStart (addr : BitVec 32) : Bool :=
  m.awaddr == addr && m.awvalid && s.axiAwready

/-- An SG START is set by a bit of the data that is written to its address. -/
def sgStart (addr : BitVec 32) (bit : Bool) : Bool :=
  s.slvRegWren m && s.axiAwaddr == addr && bit

def startSet : BarStart → Bool
  | .c2hBlockDma => s.blockStart m 0x8
  | .h2cBlockDma => s.blockStart m 0x18
  | .c2hSgList => s.sgStart m 0x40 m.wdata[0]
  | .c2hSgDma => s.sgStart m 0x40 m.wdata[1]
  | .h2cSgList => s.sgStart m 0x50 m.wdata[0]
  | .h2cSgDma => s.sgStart m 0x50 m.wdata[1]

/-- The status of the channel is cleared by a write to its address. -/
def statusClear (c : BarChannel) : Bool :=
  m.awaddr.extractLsb' 2 30 == c.statusIndex.setWidth 30 && m.awvalid && s.axiAwready

def clock (status : BarChannel → BitVec 32) : BarRegister where
  axiAwready := readyNext m.awvalid s.axiAwready
  axiAwaddr := if !s.axiAwready && m.awvalid then m.awaddr else s.axiAwaddr
  axiWready := readyNext m.wvalid s.axiWready
  axiBvalid :=
    if !s.axiBvalid && s.axiWready && m.wvalid then true
    else if m.bready && s.axiBvalid then false
    else s.axiBvalid
  axiArready := readyNext m.arvalid s.axiArready
  axiAraddr := if !s.axiArready && m.arvalid then m.araddr else s.axiAraddr
  axiRvalid :=
    if s.axiArready && m.arvalid && !s.axiRvalid then true
    else if s.axiRvalid && m.rready then false
    else s.axiRvalid
  axiRdata := if s.slvRegRden m then s.regDataOut else s.axiRdata
  slvReg := if s.slvRegWren m then
    Function.update s.slvReg (regIndex s.axiAwaddr)
      (writeStrobes (s.slvReg (regIndex s.axiAwaddr)) m.wdata m.wstrb) else s.slvReg
  statusReg := fun c =>
    if s.statusClear m c then 0
    else if s.statusReg c = 0 then status c
    else s.statusReg c
  start := fun p => if s.start p then false else s.startSet m p

def pulses : List (BarStart × BarConfig) := barPulses s.start s.slvReg

end BarRegister

lemma writeStrobes_full (old wdata : BitVec 32) : writeStrobes old wdata 15#4 = wdata := by
  apply BitVec.eq_of_getLsbD_eq
  intro i hi
  simp only [writeStrobes, BitVec.getLsbD_append]
  interval_cases i <;> simp

end FpgaPcie
