import FpgaPcie.Rtl.CardWrite

/-!
# The AXI RAM `axi_ram`

One FSM takes a write burst, its beats and gives its response, another one reads a word for each beat of a read
burst, with one more register on the output where `PIPELINE_OUTPUT` is set. The two share the memory, a write and a
read of the same word in one cycle reads the old word. Responses carry no error and the IDs only come back, so that
both are left out.
-/

namespace FpgaPcie

/-- The parameters of `axi_ram`; the longest burst is that of the masters. -/
structure AxiRamConfig extends AxiConfig where
  pipelineOutput : Bool

/-- A burst on an address channel of the RAM. -/
structure RamBurst where
  axaddr : ℕ
  axlen : ℕ
  axsize : ℕ
  axburst : ℕ

/-- A beat of the R channel. -/
structure RBeat (n : ℕ) where
  rdata : Bytes n
  rlast : Bool

inductive RamWriteFsm
  | idle
  | burst
  | resp
  deriving DecidableEq

inductive RamReadFsm
  | idle
  | burst
  deriving DecidableEq

structure AxiRamInput (c : AxiRamConfig) where
  sAxiAw : RamBurst
  sAxiAwvalid : Bool
  sAxiW : WBeat c.axiStrbWidth
  sAxiWvalid : Bool
  sAxiBready : Bool
  sAxiAr : RamBurst
  sAxiArvalid : Bool
  sAxiRready : Bool

structure RamWriteReg where
  writeStateReg : RamWriteFsm
  writeAddrReg : ℕ
  writeCountReg : ℕ
  writeSizeReg : ℕ
  writeBurstReg : ℕ
  sAxiAwreadyReg : Bool
  sAxiWreadyReg : Bool
  sAxiBvalidReg : Bool

structure RamReadReg (n : ℕ) where
  readStateReg : RamReadFsm
  readAddrReg : ℕ
  readCountReg : ℕ
  readSizeReg : ℕ
  readBurstReg : ℕ
  sAxiArreadyReg : Bool
  sAxiRReg : RBeat n
  sAxiRvalidReg : Bool
  sAxiRPipeReg : RBeat n
  sAxiRvalidPipeReg : Bool

structure AxiRamState (c : AxiRamConfig) where
  write : RamWriteReg
  read : RamReadReg c.axiStrbWidth
  mem : ℕ → Bytes c.axiStrbWidth

variable {c : AxiRamConfig}

namespace AxiRamConfig

variable (c : AxiRamConfig)

/-- `write_size_next` and `read_size_next`. -/
def sizeNext (axsize : ℕ) : ℕ := if axsize < c.axiBurstSize then axsize else c.axiBurstSize

/-- The address of the next beat: it stays in a burst of type FIXED. -/
def addrNext (size burst addr : ℕ) : ℕ := if burst ≠ 0 then (addr + 1 <<< size) % 2 ^ c.axiAddrWidth else addr

/-- `write_addr_valid` and `read_addr_valid`: the number of the word. -/
def addrValid (addr : ℕ) : ℕ := addr >>> c.axiBurstSize

/-- The words of `n` beats from the address `addr` on. -/
def beatWords (size burst : ℕ) : ℕ → ℕ → List ℕ
  | _, 0 => []
  | addr, n + 1 => c.addrMask addr :: beatWords size burst (c.addrNext size burst addr) n

end AxiRamConfig

/-- The words of a burst. -/
def RamBurst.words (c : AxiRamConfig) (b : RamBurst) : List ℕ :=
  c.beatWords (c.sizeNext b.axsize) b.axburst (b.axaddr % 2 ^ c.axiAddrWidth) (b.axlen % 2 ^ 8 + 1)

/-- The `rlast` flags of a burst. -/
def RamBurst.lastFlags (b : RamBurst) : List Bool := List.replicate (b.axlen % 2 ^ 8) false ++ [true]

namespace AxiRamState

variable (s : AxiRamState c) (i : AxiRamInput c)

def awAccept : Bool := s.write.sAxiAwreadyReg && i.sAxiAwvalid

def wAccept : Bool := s.write.sAxiWreadyReg && i.sAxiWvalid

def arAccept : Bool := s.read.sAxiArreadyReg && i.sAxiArvalid

/-- `mem_wr_en`. -/
def memWrEn : Bool := s.write.writeStateReg == .burst && s.wAccept i

/-- There is room for a response. -/
def respond : Bool := i.sAxiBready || !s.write.sAxiBvalidReg

/-- What holds unless a state says otherwise. -/
def writeDefault : RamWriteReg :=
  { s.write with
    sAxiAwreadyReg := false
    sAxiWreadyReg := false
    sAxiBvalidReg := s.write.sAxiBvalidReg && !i.sAxiBready }

def writeNext : RamWriteReg :=
  match s.write.writeStateReg with
  | .idle =>
    if s.awAccept i then
      { s.writeDefault i with
        writeStateReg := .burst
        writeAddrReg := i.sAxiAw.axaddr % 2 ^ c.axiAddrWidth
        writeCountReg := i.sAxiAw.axlen % 2 ^ 8
        writeSizeReg := c.sizeNext i.sAxiAw.axsize
        writeBurstReg := i.sAxiAw.axburst
        sAxiWreadyReg := true }
    else { s.writeDefault i with sAxiAwreadyReg := true }
  | .burst =>
    if s.wAccept i then
      let r : RamWriteReg := { s.writeDefault i with
        writeAddrReg := c.addrNext s.write.writeSizeReg s.write.writeBurstReg s.write.writeAddrReg
        writeCountReg := (s.write.writeCountReg + (2 ^ 8 - 1)) % 2 ^ 8 }
      if 0 < s.write.writeCountReg then { r with sAxiWreadyReg := true }
      else if s.respond i then
        { r with
          writeStateReg := .idle
          sAxiAwreadyReg := true
          sAxiBvalidReg := true }
      else { r with writeStateReg := .resp }
    else { s.writeDefault i with sAxiWreadyReg := true }
  | .resp =>
    if s.respond i then
      { s.writeDefault i with
        writeStateReg := .idle
        sAxiAwreadyReg := true
        sAxiBvalidReg := true }
    else s.writeDefault i

/-- The output register is read or empty, so that a word may be fetched. -/
def advances : Bool := i.sAxiRready || c.pipelineOutput && !s.read.sAxiRvalidPipeReg

/-- `mem_rd_en`. -/
def memRdEn : Bool := s.read.readStateReg == .burst && (s.advances i || !s.read.sAxiRvalidReg)

/-- The word that is fetched. -/
def fetch : RBeat c.axiStrbWidth := ⟨s.mem (c.addrValid s.read.readAddrReg), decide (s.read.readCountReg = 0)⟩

/-- What holds unless a state says otherwise, with the pipeline register behind the output register. -/
def readDefault : RamReadReg c.axiStrbWidth :=
  { s.read with
    sAxiArreadyReg := false
    sAxiRvalidReg := s.read.sAxiRvalidReg && !s.advances i
    sAxiRPipeReg := if !s.read.sAxiRvalidPipeReg || i.sAxiRready then s.read.sAxiRReg else s.read.sAxiRPipeReg
    sAxiRvalidPipeReg := if !s.read.sAxiRvalidPipeReg || i.sAxiRready then s.read.sAxiRvalidReg
      else s.read.sAxiRvalidPipeReg }

def readNext : RamReadReg c.axiStrbWidth :=
  match s.read.readStateReg with
  | .idle =>
    if s.arAccept i then
      { s.readDefault i with
        readStateReg := .burst
        readAddrReg := i.sAxiAr.axaddr % 2 ^ c.axiAddrWidth
        readCountReg := i.sAxiAr.axlen % 2 ^ 8
        readSizeReg := c.sizeNext i.sAxiAr.axsize
        readBurstReg := i.sAxiAr.axburst }
    else { s.readDefault i with sAxiArreadyReg := true }
  | .burst =>
    if s.memRdEn i then
      { s.readDefault i with
        readStateReg := if 0 < s.read.readCountReg then .burst else .idle
        readAddrReg := c.addrNext s.read.readSizeReg s.read.readBurstReg s.read.readAddrReg
        readCountReg := (s.read.readCountReg + (2 ^ 8 - 1)) % 2 ^ 8
        sAxiArreadyReg := !decide (0 < s.read.readCountReg)
        sAxiRReg := s.fetch
        sAxiRvalidReg := true }
    else s.readDefault i

/-- A beat writes the lanes with a strobe. -/
def memNext : ℕ → Bytes c.axiStrbWidth :=
  if s.memWrEn i then
    Function.update s.mem (c.addrValid s.write.writeAddrReg) fun k =>
      if i.sAxiW.wstrb k then i.sAxiW.wdata k else s.mem (c.addrValid s.write.writeAddrReg) k
  else s.mem

/-- One rising clock edge out of reset. -/
def step : AxiRamState c := ⟨s.writeNext i, s.readNext i, s.memNext i⟩

/-- `s_axi_r`. -/
def sAxiR : RBeat c.axiStrbWidth := if c.pipelineOutput then s.read.sAxiRPipeReg else s.read.sAxiRReg

/-- `s_axi_rvalid`. -/
def sAxiRvalid : Bool := if c.pipelineOutput then s.read.sAxiRvalidPipeReg else s.read.sAxiRvalidReg

/-- The initial contents: in word `i` the 16 integers from `16 * i + 1` on. -/
def initMem (i : ℕ) : Bytes c.axiStrbWidth := fun j =>
  if j.val / 4 < 16 then BitVec.ofNat 8 ((i * 16 + 1 + j.val / 4) >>> (8 * (j.val % 4))) else 0

def reset (c : AxiRamConfig) : AxiRamState c where
  write := ⟨.idle, 0, 0, 0, 0, false, false, false⟩
  read := ⟨.idle, 0, 0, 0, 0, false, ⟨fun _ => 0, false⟩, false, ⟨fun _ => 0, false⟩, false⟩
  mem := initMem

/-- The memory by byte address. -/
def bytes : CardMem := fun a => s.mem (c.addrValid a) (Fin.ofNat c.axiStrbWidth a)

end AxiRamState

/-! ### The RAM with its logs -/

/-- The RAM with what it has taken on the AW, W and AR channels, the number of responses taken from it, the words
fetched and the beats taken on the R channel. -/
structure AxiRamSystem (c : AxiRamConfig) where
  ram : AxiRamState c
  awBursts : List RamBurst
  wBeats : List (WBeat c.axiStrbWidth)
  answered : ℕ
  arBursts : List RamBurst
  fetched : List (RBeat c.axiStrbWidth)
  delivered : List (RBeat c.axiStrbWidth)

namespace AxiRamSystem

variable (x : AxiRamSystem c) (i : AxiRamInput c)

def step : AxiRamSystem c where
  ram := x.ram.step i
  awBursts := x.awBursts ++ if x.ram.awAccept i then [i.sAxiAw] else []
  wBeats := x.wBeats ++ if x.ram.wAccept i then [i.sAxiW] else []
  answered := x.answered + (x.ram.write.sAxiBvalidReg && i.sAxiBready).toNat
  arBursts := x.arBursts ++ if x.ram.arAccept i then [i.sAxiAr] else []
  fetched := x.fetched ++ if x.ram.memRdEn i then [x.ram.fetch] else []
  delivered := x.delivered ++ if x.ram.sAxiRvalid && i.sAxiRready then [x.ram.sAxiR] else []

/-- A run from the state `s`, with empty logs. -/
def run (s : AxiRamState c) (i : ℕ → AxiRamInput c) : ℕ → AxiRamSystem c
  | 0 => ⟨s, [], [], 0, [], [], []⟩
  | t + 1 => (run s i t).step (i t)

/-- The words of the write bursts. -/
def awWords : List ℕ := x.awBursts.flatMap (RamBurst.words c)

/-- The words of the read bursts. -/
def arWords : List ℕ := x.arBursts.flatMap (RamBurst.words c)

end AxiRamSystem

end FpgaPcie
