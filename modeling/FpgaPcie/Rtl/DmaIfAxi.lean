import FpgaPcie.Rtl.AxiRamLink
import FpgaPcie.Rtl.AxiRdCopy

/-!
# Both directions at once: `dma_if_pcie_axi` with the RAM

The module has a block transfer in each direction, and the two share the memory behind its AXI port. They may be
started at any time, one while the other is under way. Each copies its bytes as if it were alone, as long as they use
different words of the memory; and what has been copied to the card can be copied back.
-/

namespace FpgaPcie

/-- The parameters of the engines, of the reader and the writer, and of the RAM, on one bus. -/
structure DmaIfConfig where
  offsetWidth : ℕ
  pcieTagWidth : ℕ
  txSeqNumWidth : ℕ
  requesterId : ℕ
  maxPayloadSize : ℕ
  maxReadPayloadSize : ℕ
  axiAddrWidth : ℕ
  axiMaxBurstLen : ℕ
  pipelineOutput : Bool
  offsetWidth_le : offsetWidth ≤ 6
  pcieTagWidth_le : pcieTagWidth ≤ 8
  maxPayloadSize_lt : maxPayloadSize < 8
  maxReadPayloadSize_lt : maxReadPayloadSize < 8
  axiAddrWidth_ge : 12 ≤ axiAddrWidth
  axiMaxBurstLen_pos : 1 ≤ axiMaxBurstLen
  axiMaxBurstLen_le : axiMaxBurstLen ≤ 256

namespace DmaIfConfig

variable (c : DmaIfConfig)

lemma offsetWidth_le_seven : c.offsetWidth ≤ 7 := Nat.le_succ_of_le c.offsetWidth_le

abbrev wr : AxiWrConfig where
  wr := ⟨c.offsetWidth, c.txSeqNumWidth, c.requesterId, c.maxPayloadSize, c.offsetWidth_le, c.maxPayloadSize_lt⟩
  axiAddrWidth := c.axiAddrWidth
  axiMaxBurstLen := c.axiMaxBurstLen
  axiAddrWidth_ge := c.axiAddrWidth_ge
  axiMaxBurstLen_pos := c.axiMaxBurstLen_pos
  axiMaxBurstLen_le := c.axiMaxBurstLen_le

abbrev rd : AxiRdConfig where
  rd := ⟨c.offsetWidth, c.pcieTagWidth, c.requesterId, c.maxReadPayloadSize, c.pcieTagWidth_le,
    c.maxReadPayloadSize_lt⟩
  axiAddrWidth := c.axiAddrWidth
  axiMaxBurstLen := c.axiMaxBurstLen
  offsetWidth_le := c.offsetWidth_le_seven
  axiAddrWidth_ge := c.axiAddrWidth_ge
  axiMaxBurstLen_pos := c.axiMaxBurstLen_pos
  axiMaxBurstLen_le := c.axiMaxBurstLen_le

abbrev ram : AxiRamConfig := c.wr.axi.ram c.pipelineOutput

end DmaIfConfig

structure DmaIfInput (c : DmaIfConfig) where
  descWrReqLength : ℕ
  descWrReqAddress : ℕ
  descWrReqStart : Bool
  descWrRamAddr : ℕ
  txWrReqTlpReady : Bool
  descTxRdReqLength : ℕ
  descTxRdReqAddress : ℕ
  descTxRdReqStart : Bool
  descRdRamAddr : ℕ
  txRdReqTlpReady : Bool
  rxCplTlpValid : Bool
  rxCplTlpHdr : BitVec 128
  rxCplTlpData : Bytes c.rd.rd.busBytes

/-- The two directions, with the RAM on the AXI port. -/
structure DmaIfAxi (c : DmaIfConfig) where
  dmaIfAxiWr : AxiWr c.wr
  dmaIfAxiRd : AxiRdDma c.rd
  axiRam : AxiRamState c.ram

variable {c : DmaIfConfig}

namespace DmaIfAxi

variable (s : DmaIfAxi c) (i : DmaIfInput c)

def wrInput : AxiWrInput c.wr where
  descWrReqLength := i.descWrReqLength
  descWrReqAddress := i.descWrReqAddress
  descWrReqRamaddr := i.descWrRamAddr
  descWrReqStart := i.descWrReqStart
  txWrReqTlpReady := i.txWrReqTlpReady
  mAxiArready := s.axiRam.read.sAxiArreadyReg
  mAxiRdata := s.axiRam.sAxiR.rdata
  mAxiRvalid := s.axiRam.sAxiRvalid

def rdInput : AxiRdDmaInput c.rd where
  descTxRdReqLength := i.descTxRdReqLength
  descTxRdReqAddress := i.descTxRdReqAddress
  descTxRdReqStart := i.descTxRdReqStart
  descTxRdReqRamaddr := i.descRdRamAddr
  txRdReqTlpReady := i.txRdReqTlpReady
  rxCplTlpValid := i.rxCplTlpValid
  rxCplTlpHdr := i.rxCplTlpHdr
  rxCplTlpData := i.rxCplTlpData
  mAxiAwready := s.axiRam.write.sAxiAwreadyReg
  mAxiWready := s.axiRam.write.sAxiWreadyReg
  mAxiBvalid := s.axiRam.write.sAxiBvalidReg

/-- The AXI ports of the reader and the writer; both drive `AXI_BURST_SIZE` and bursts of type INCR. -/
def ramInput : AxiRamInput c.ram where
  sAxiAw := AxiBurst.toRam c.wr.axi
    ⟨s.dmaIfAxiRd.dmaAxiWr.reg.mAxiAwaddrReg, s.dmaIfAxiRd.dmaAxiWr.reg.mAxiAwlenReg⟩
  sAxiAwvalid := s.dmaIfAxiRd.dmaAxiWr.reg.mAxiAwvalidReg
  sAxiW := s.dmaIfAxiRd.dmaAxiWr.out.outReg
  sAxiWvalid := s.dmaIfAxiRd.dmaAxiWr.out.outValidReg
  sAxiBready := s.dmaIfAxiRd.dmaAxiWr.status.mAxiBreadyReg
  sAxiAr := AxiBurst.toRam c.wr.axi
    ⟨s.dmaIfAxiWr.dmaAxiRd.axi.mAxiAraddrReg, s.dmaIfAxiWr.dmaAxiRd.axi.mAxiArlenReg⟩
  sAxiArvalid := s.dmaIfAxiWr.dmaAxiRd.axi.mAxiArvalidReg
  sAxiRready := s.dmaIfAxiWr.dmaAxiRd.axis.mAxiRreadyReg

/-- One rising clock edge out of reset. -/
def step : DmaIfAxi c where
  dmaIfAxiWr := s.dmaIfAxiWr.step (s.wrInput i)
  dmaIfAxiRd := s.dmaIfAxiRd.step (s.rdInput i)
  axiRam := s.axiRam.step s.ramInput

def reset (c : DmaIfConfig) : DmaIfAxi c := ⟨.reset c.wr, .reset c.rd, .reset c.ram⟩

def run (s : DmaIfAxi c) (i : ℕ → DmaIfInput c) : ℕ → DmaIfAxi c
  | 0 => s
  | t + 1 => (run s i t).step (i t)

/-- The inputs of the direction to the host, inside. -/
def wrInputs (s : DmaIfAxi c) (i : ℕ → DmaIfInput c) (t : ℕ) : AxiWrInput c.wr := (run s i t).wrInput (i t)

/-- The inputs of the direction to the card, inside. -/
def rdInputs (s : DmaIfAxi c) (i : ℕ → DmaIfInput c) (t : ℕ) : AxiRdDmaInput c.rd := (run s i t).rdInput (i t)

/-- The RAM inside, with its logs. -/
def ram (s : DmaIfAxi c) (i : ℕ → DmaIfInput c) (t : ℕ) : AxiRamSystem c.ram :=
  AxiRamSystem.run s.axiRam (fun t => (run s i t).ramInput) t

/-- Nothing is under way. -/
structure Quiet (s : DmaIfAxi c) : Prop where
  wr : s.dmaIfAxiWr.Quiet
  rd : s.dmaIfAxiRd.Quiet
  ram : s.axiRam.Quiet

lemma reset_quiet (c : DmaIfConfig) : (reset c).Quiet :=
  ⟨AxiWr.reset_quiet _, AxiRdDma.reset_quiet _, AxiRamState.reset_quiet _⟩

section Run

variable {s : DmaIfAxi c} {i : ℕ → DmaIfInput c}

lemma run_add (T t : ℕ) : run s i (T + t) = run (run s i T) (fun t => i (T + t)) t := by
  induction t with
  | zero => rfl
  | succ t ih =>
    show (run s i (T + t)).step (i (T + t)) = (run (run s i T) (fun t => i (T + t)) t).step (i (T + t))
    rw [ih]

lemma run_wr (t : ℕ) : AxiWr.run s.dmaIfAxiWr (wrInputs s i) t = (run s i t).dmaIfAxiWr := by
  induction t with
  | zero => rfl
  | succ t ih =>
    show (AxiWr.run s.dmaIfAxiWr (wrInputs s i) t).step _ = (run s i t).dmaIfAxiWr.step _
    rw [ih]
    rfl

lemma run_rd (t : ℕ) : AxiRdDma.run s.dmaIfAxiRd (rdInputs s i) t = (run s i t).dmaIfAxiRd := by
  induction t with
  | zero => rfl
  | succ t ih =>
    show (AxiRdDma.run s.dmaIfAxiRd (rdInputs s i) t).step _ = (run s i t).dmaIfAxiRd.step _
    rw [ih]
    rfl

lemma ram_eq (t : ℕ) : (ram s i t).ram = (run s i t).axiRam := by
  induction t with
  | zero => rfl
  | succ t ih =>
    show (ram s i t).ram.step _ = (run s i t).axiRam.step _
    rw [ih]

/-! ### The AXI ports -/

lemma wrLink (s : DmaIfAxi c) (i : ℕ → DmaIfInput c) :
    AxiDmaWrSystem.RamLink (c := c.rd.axi) (p := c.pipelineOutput) s.dmaIfAxiRd.dmaAxiWr
      (AxiRdDma.wrInputs s.dmaIfAxiRd (rdInputs s i)) s.axiRam (fun t => (run s i t).ramInput) := by
  have hram : ∀ t, (AxiRamSystem.run s.axiRam (fun t => (run s i t).ramInput) t).ram = (run s i t).axiRam :=
    fun t => ram_eq t
  have hwriter : ∀ t, (AxiDmaWrSystem.run s.dmaIfAxiRd.dmaAxiWr (AxiRdDma.wrInputs s.dmaIfAxiRd (rdInputs s i)) t).engine =
      (run s i t).dmaIfAxiRd.dmaAxiWr := by
    intro t
    rw [← run_rd]
    exact AxiRdDma.writer_engine _ _ t
  refine ⟨fun t => ?_, fun t => ?_, fun t => ?_, fun t => ?_, fun t => ?_, fun t => ?_, fun t => ?_, fun t => ?_⟩
  · exact (congrArg (fun r : AxiRamState c.ram => r.write.sAxiAwreadyReg) (hram t)).symm
  · exact (congrArg (fun r : AxiRamState c.ram => r.write.sAxiWreadyReg) (hram t)).symm
  · exact (congrArg (fun r : AxiRamState c.ram => r.write.sAxiBvalidReg) (hram t)).symm
  · rw [hwriter]
    rfl
  · rw [hwriter]
    rfl
  · rw [hwriter]
    rfl
  · rw [hwriter]
    rfl
  · rw [hwriter]
    rfl

lemma rdLink (s : DmaIfAxi c) (i : ℕ → DmaIfInput c) :
    AxiDmaRdSystem.RamLink (c := c.wr.axi) (p := c.pipelineOutput) s.dmaIfAxiWr.dmaAxiRd
      (fun t => (AxiWr.run s.dmaIfAxiWr (wrInputs s i) t).rdInput (wrInputs s i t)) s.axiRam
      (fun t => (run s i t).ramInput) := by
  have hram : ∀ t, (AxiRamSystem.run s.axiRam (fun t => (run s i t).ramInput) t).ram = (run s i t).axiRam :=
    fun t => ram_eq t
  have hreader : ∀ t, (AxiDmaRdSystem.run s.dmaIfAxiWr.dmaAxiRd
      (fun t => (AxiWr.run s.dmaIfAxiWr (wrInputs s i) t).rdInput (wrInputs s i t)) t).engine =
      (run s i t).dmaIfAxiWr.dmaAxiRd := by
    intro t
    rw [← run_wr]
    exact AxiWr.reader_engine _ _ t
  refine ⟨fun t => ?_, fun t => ?_, fun t => ?_, fun t => ?_, fun t => ?_, fun t => ?_⟩
  · exact (congrArg (fun r : AxiRamState c.ram => r.read.sAxiArreadyReg) (hram t)).symm
  · exact (congrArg (fun r : AxiRamState c.ram => r.sAxiR.rdata) (hram t)).symm
  · exact (congrArg (fun r : AxiRamState c.ram => r.sAxiRvalid) (hram t)).symm
  · rw [hreader]
    rfl
  · rw [hreader]
    rfl
  · rw [hreader]
    rfl

end Run

end DmaIfAxi

end FpgaPcie
