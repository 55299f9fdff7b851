import FpgaPcie.Rtl.AxiDmaWrStores
import FpgaPcie.Rtl.AxiRd
import FpgaPcie.Rtl.CardWrite
import FpgaPcie.Rtl.DmaRdReassembly

/-!
# Block transfers to card memory: `dma_if_pcie_axi_rd`

The start from the host launches the read engine and gives the writer on the card memory a descriptor, and the
stream of the engine is that of the writer. Together they copy the bytes of the host buffer to the bytes of the
card memory and write no other byte, in whatever order the host answers and whatever the ready flags of the card
memory do.
-/

namespace FpgaPcie

/-- The parameters of the read engine and of the writer on the same bus. -/
structure AxiRdConfig where
  rd : RdConfig
  axiAddrWidth : ℕ
  axiMaxBurstLen : ℕ
  offsetWidth_le : rd.offsetWidth ≤ 7
  axiAddrWidth_ge : 12 ≤ axiAddrWidth
  axiMaxBurstLen_pos : 1 ≤ axiMaxBurstLen
  axiMaxBurstLen_le : axiMaxBurstLen ≤ 256

abbrev AxiRdConfig.axi (c : AxiRdConfig) : AxiDmaWrConfig where
  axiBurstSize := c.rd.offsetWidth
  axiAddrWidth := c.axiAddrWidth
  axiMaxBurstLen := c.axiMaxBurstLen
  axiBurstSize_le := c.offsetWidth_le
  axiAddrWidth_ge := c.axiAddrWidth_ge
  axiMaxBurstLen_pos := c.axiMaxBurstLen_pos
  axiMaxBurstLen_le := c.axiMaxBurstLen_le
  axisLastEnable := true

structure AxiRdDmaInput (c : AxiRdConfig) where
  descTxRdReqLength : ℕ
  descTxRdReqAddress : ℕ
  descTxRdReqStart : Bool
  descTxRdReqRamaddr : ℕ
  txRdReqTlpReady : Bool
  rxCplTlpValid : Bool
  rxCplTlpHdr : BitVec 128
  rxCplTlpData : Bytes c.rd.busBytes
  mAxiAwready : Bool
  mAxiWready : Bool
  mAxiBvalid : Bool

/-- The write descriptor and the read engine, with the writer behind them. -/
structure AxiRdDma (c : AxiRdConfig) where
  axiRd : AxiRd c.rd
  dmaAxiWr : AxiDmaWrState c.axi

variable {c : AxiRdConfig}

namespace AxiRdDma

variable (s : AxiRdDma c) (i : AxiRdDmaInput c)

def rdInput : AxiRdInput c.rd where
  descTxRdReqStart := i.descTxRdReqStart
  descTxRdReqLength := i.descTxRdReqLength
  descTxRdReqAddress := i.descTxRdReqAddress
  txRdReqTlpReady := i.txRdReqTlpReady
  rxCplTlpValid := i.rxCplTlpValid
  rxCplTlpHdr := i.rxCplTlpHdr
  rxCplTlpData := i.rxCplTlpData
  mAxisTlpTready := s.dmaAxiWr.reg.sAxisWriteDataTreadyReg
  descTxRdReqRamaddr := i.descTxRdReqRamaddr
  sAxisWriteDescReady := s.dmaAxiWr.reg.sAxisWriteDescReadyReg

def wrInput : AxiDmaWrInput c.axi where
  sAxisWriteDesc := ⟨i.descTxRdReqRamaddr, i.descTxRdReqLength⟩
  sAxisWriteDescValid := s.axiRd.writeDesc.sAxisWriteDescValid
  sAxisWriteData := s.axiRd.pcieAxisRd.out.outReg
  sAxisWriteDataTvalid := s.axiRd.pcieAxisRd.out.outValidReg
  mAxiAwready := i.mAxiAwready
  mAxiWready := i.mAxiWready
  mAxiBvalid := i.mAxiBvalid

/-- One rising clock edge out of reset. -/
def step : AxiRdDma c where
  axiRd := s.axiRd.clock (s.rdInput i)
  dmaAxiWr := s.dmaAxiWr.step (s.wrInput i)

def reset (c : AxiRdConfig) : AxiRdDma c := ⟨⟨.reset, rdReset c.rd⟩, .reset c.axi⟩

def run (s : AxiRdDma c) (i : ℕ → AxiRdDmaInput c) : ℕ → AxiRdDma c
  | 0 => s
  | t + 1 => (run s i t).step (i t)

/-- The inputs of the read engine inside. -/
def rdInputs (s : AxiRdDma c) (i : ℕ → AxiRdDmaInput c) (t : ℕ) : RdInput c.rd :=
  ((run s i t).rdInput (i t)).toRdInput

/-- The inputs of the writer inside. -/
def wrInputs (s : AxiRdDma c) (i : ℕ → AxiRdDmaInput c) (t : ℕ) : AxiDmaWrInput c.axi := (run s i t).wrInput (i t)

/-- The read engine inside, with its logs. -/
def reader (s : AxiRdDma c) (i : ℕ → AxiRdDmaInput c) (t : ℕ) : RdSystem c.rd :=
  (RdSystem.fresh s.axiRd.pcieAxisRd).run (rdInputs s i) t

/-- The writer inside, with its logs. -/
def writer (s : AxiRdDma c) (i : ℕ → AxiRdDmaInput c) (t : ℕ) : AxiDmaWrSystem c.axi :=
  AxiDmaWrSystem.run s.dmaAxiWr (wrInputs s i) t

/-- Nothing is under way. -/
structure Quiet (s : AxiRdDma c) : Prop where
  valid : s.axiRd.writeDesc.sAxisWriteDescValid = false
  startReg : s.axiRd.writeDesc.descRdReqStartReg = false
  engine : s.axiRd.pcieAxisRd.Quiet
  writer : AxiDmaWrSystem.Quiet s.dmaAxiWr

lemma reset_quiet (c : AxiRdConfig) : (reset c).Quiet :=
  ⟨rfl, rfl, rdReset_quiet _, AxiDmaWrSystem.reset_quiet _⟩

/-- One start, in cycle 0; the registers hold the length and the card address when the writer takes them, a cycle
later. -/
structure StartsOnce (i : ℕ → AxiRdDmaInput c) (address length ramaddr : ℕ) : Prop where
  pulse : (i 0).descTxRdReqStart = true
  low : ∀ t, 0 < t → (i t).descTxRdReqStart = false
  kept : (i 1).descTxRdReqLength = length
  ramaddr : (i 1).descTxRdReqRamaddr = ramaddr
  address : (i 0).descTxRdReqAddress = address
  length : (i 0).descTxRdReqLength = length

/-- What a block transfer needs: a 512-bit bus with requests of 512 bytes, an aligned host buffer, and a transfer of
at least one byte that is not longer than the card memory. -/
structure TransferOk (c : AxiRdConfig) (address length : ℕ) : Prop where
  wide : c.rd.Wide512
  aligned : address % 64 = 0
  lt64 : address < 2 ^ 64
  pos : 1 ≤ length
  lt : length < 2 ^ 32
  fits : length ≤ 2 ^ c.axiAddrWidth

/-- The host answers what it owes, and the card memory takes and answers what it is given. -/
structure Fair (s : AxiRdDma c) (i : ℕ → AxiRdDmaInput c) : Prop where
  answered : ∀ t tag, (reader s i t).owed tag ≠ [] → ∃ u, t ≤ u ∧ (i u).rxCplTlpValid = true
  slave : AxiDmaWrSystem.SlaveFair s.dmaAxiWr (wrInputs s i)

section Run

variable {s : AxiRdDma c} {i : ℕ → AxiRdDmaInput c} {address length ramaddr : ℕ}

lemma reader_engine (s : AxiRdDma c) (i : ℕ → AxiRdDmaInput c) (t : ℕ) :
    (reader s i t).engine = (run s i t).axiRd.pcieAxisRd := by
  induction t with
  | zero => rfl
  | succ t ih =>
    show rdStep (reader s i t).engine _ = rdStep (run s i t).axiRd.pcieAxisRd _
    rw [ih]
    rfl

lemma writer_engine (s : AxiRdDma c) (i : ℕ → AxiRdDmaInput c) (t : ℕ) :
    (writer s i t).engine = (run s i t).dmaAxiWr := by
  induction t with
  | zero => rfl
  | succ t ih =>
    show (writer s i t).engine.step _ = (run s i t).dmaAxiWr.step _
    rw [ih]
    rfl

/-! ### The launch -/

/-- The descriptor is valid in cycle 1. -/
lemma launch_valid (hquiet : s.Quiet) (hstart : StartsOnce i address length ramaddr) :
    (run s i 1).axiRd.writeDesc.sAxisWriteDescValid = true := by
  simp [run, step, AxiRd.clock, WriteDesc.clock, AxiRdInput.desc, rdInput, hquiet.valid, hquiet.startReg, hstart.pulse]

lemma launch_ready (hquiet : s.Quiet) : (run s i 1).dmaAxiWr.reg.sAxisWriteDescReadyReg = true := by
  show (s.dmaAxiWr.regNext (s.wrInput (i 0))).sAxisWriteDescReadyReg = true
  simp [AxiDmaWrState.regNext, hquiet.writer.state, AxiDmaWrState.idleNext, AxiDmaWrState.descAccept, wrInput,
    hquiet.valid, hquiet.writer.av]

/-- It is taken there, and no other one follows. -/
lemma launched (hquiet : s.Quiet) (hstart : StartsOnce i address length ramaddr) (t : ℕ) :
    (run s i (t + 2)).axiRd.writeDesc.sAxisWriteDescValid = false := by
  induction t with
  | zero =>
    have hvalid := launch_valid hquiet hstart
    have hready := launch_ready hquiet (i := i)
    show ((run s i 1).axiRd.writeDesc.clock _).sAxisWriteDescValid = false
    simp [WriteDesc.clock, AxiRdInput.desc, rdInput, hvalid, hready]
  | succ t ih =>
    show ((run s i (t + 2)).axiRd.writeDesc.clock _).sAxisWriteDescValid = false
    simp [WriteDesc.clock, AxiRdInput.desc, rdInput, ih, hstart.low (t + 2) (Nat.succ_pos _)]

lemma accepted_one (hquiet : s.Quiet) : (writer s i 1).accepted = [] := by
  show [] ++ (if s.dmaAxiWr.descAccept (s.wrInput (i 0)) then _ else _) = _
  simp [AxiDmaWrState.descAccept, wrInput, hquiet.valid]

/-- The writer has one descriptor. -/
theorem accepted_eq (hquiet : s.Quiet) (hstart : StartsOnce i address length ramaddr) (t : ℕ) :
    (writer s i (t + 2)).accepted = [⟨ramaddr, length⟩] := by
  induction t with
  | zero =>
    show (writer s i 1).accepted ++ (if (writer s i 1).engine.descAccept (wrInputs s i 1) then
      [(wrInputs s i 1).sAxisWriteDesc] else []) = _
    have hacc : (writer s i 1).engine.descAccept (wrInputs s i 1) = true := by
      rw [writer_engine]
      simp [AxiDmaWrState.descAccept, wrInputs, wrInput, launch_ready hquiet, launch_valid hquiet hstart]
    rw [accepted_one hquiet, hacc]
    simp [wrInputs, wrInput, hstart.kept, hstart.ramaddr]
  | succ t ih =>
    show (writer s i (t + 2)).accepted ++ (if (writer s i (t + 2)).engine.descAccept (wrInputs s i (t + 2)) then
      _ else _) = _
    rw [ih]
    simp [AxiDmaWrState.descAccept, wrInputs, wrInput, launched hquiet hstart t]

/-! ### The stream between engine and writer -/

/-- The writer takes what the engine hands on. -/
theorem taken_eq (s : AxiRdDma c) (i : ℕ → AxiRdDmaInput c) (t : ℕ) :
    (writer s i t).taken = (reader s i t).delivered := by
  induction t with
  | zero => rfl
  | succ t ih =>
    show (writer s i t).taken ++ (if (writer s i t).engine.dataAccept (wrInputs s i t) then
      [(wrInputs s i t).sAxisWriteData] else []) = (reader s i t).delivered ++
        if (reader s i t).engine.out.outValidReg && (rdInputs s i t).mAxisTlpTready then
          [(reader s i t).engine.out.outReg] else []
    rw [ih, writer_engine, reader_engine, AxiDmaWrState.dataAccept, Bool.and_comm]
    rfl

lemma rd_starts (hstart : StartsOnce i address length ramaddr) :
    FpgaPcie.StartsOnce (rdInputs s i) address length :=
  ⟨hstart.pulse, hstart.address, hstart.length, hstart.low⟩

variable {mem : HostMem}

/-- The beats handed on and the one that is offered are the first beats of the buffer. -/
lemma offered_ok (hok : TransferOk c address length) (hquiet : s.Quiet) (hstart : StartsOnce i address length ramaddr)
    (hlegal : ∀ t, (reader s i t).Legal mem (rdInputs s i t)) (t : ℕ) :
    StreamOk mem address length ((reader s i t).delivered ++ if (reader s i t).engine.out.outValidReg then
      [(reader s i t).engine.out.outReg] else []) ∧
    ((reader s i t).delivered ++ if (reader s i t).engine.out.outValidReg then
      [(reader s i t).engine.out.outReg] else []).length ≤ (length + 63) / 64 := by
  have haligned := hok.aligned
  cases t with
  | zero =>
    have hv : (reader s i 0).engine.out.outValidReg = false := hquiet.engine.outValid
    rw [hv]
    refine ⟨fun b beat hb => ?_, Nat.zero_le _⟩
    cases hb
  | succ t =>
    have hinv := started_inv hok.wide (by omega) hok.lt64 hok.pos hok.lt hquiet.engine (rd_starts hstart) hlegal t
    obtain ⟨q, hq⟩ := hinv.out.queue
    have hcount := hq.count
    have hbeats := hq.beats
    rw [OutFifo.pending, ← List.append_assoc] at hcount hbeats
    rw [List.length_append] at hcount
    exact ⟨hbeats.left, (Nat.le_add_right _ q.length).trans (hcount.le.trans hinv.emitted_le)⟩

lemma delivered_ok (hok : TransferOk c address length) (hquiet : s.Quiet)
    (hstart : StartsOnce i address length ramaddr) (hlegal : ∀ t, (reader s i t).Legal mem (rdInputs s i t)) (t : ℕ) :
    StreamOk mem address length (reader s i t).delivered ∧
      (reader s i t).delivered.length ≤ (length + 63) / 64 := by
  obtain ⟨hbeats, hlen⟩ := offered_ok hok hquiet hstart hlegal t
  rw [List.length_append] at hlen
  exact ⟨hbeats.left, (Nat.le_add_right _ _).trans hlen⟩

/-- The last beat keeps the first lanes. -/
lemma inputOk (hok : TransferOk c address length) (hquiet : s.Quiet) (hstart : StartsOnce i address length ramaddr)
    (hlegal : ∀ t, (reader s i t).Legal mem (rdInputs s i t)) (t : ℕ) : AxiDmaWrSystem.InputOk (wrInputs s i t) := by
  refine ⟨fun hv => ?_, fun hv _ _ => ?_⟩
  · match t with
    | 0 => exact absurd (hquiet.valid.symm.trans hv) Bool.false_ne_true
    | 1 =>
      show 1 ≤ (i 1).descTxRdReqLength ∧ (i 1).descTxRdReqLength < 2 ^ 32
      rw [hstart.kept]
      exact ⟨hok.pos, hok.lt⟩
    | t + 2 => exact absurd ((launched hquiet hstart t).symm.trans hv) Bool.false_ne_true
  · have hv' : (reader s i t).engine.out.outValidReg = true := by
      rw [reader_engine]
      exact hv
    have hbeat : ((wrInputs s i t).sAxisWriteData : AxisBeat c.rd.busBytes) = (reader s i t).engine.out.outReg := by
      rw [reader_engine]
      rfl
    have hok' := (offered_ok hok hquiet hstart hlegal t).1 (reader s i t).delivered.length _
      (by rw [hv', if_pos rfl, List.getElem?_append_right le_rfl, Nat.sub_self]; rfl)
    refine ⟨length - 64 * (reader s i t).delivered.length, fun j => ?_⟩
    show ((wrInputs s i t).sAxisWriteData : AxisBeat c.rd.busBytes).tkeep j = _
    rw [hbeat, hok'.tkeep j, decide_eq_decide]
    omega

/-- Beat `b` of the buffer goes to word `b` of the copy. -/
lemma copyStore (hwide : c.rd.Wide512) {b : ℕ} {beat : AxisBeat c.rd.busBytes} (h : BeatOk mem address length b beat) :
    CopyStore c.axi.toAxiConfig mem address ramaddr length b (AxiDesc.store c.axi ⟨ramaddr, length⟩ b beat) := by
  have hword : c.axi.axiStrbWidth * b = 64 * b := congrArg (· * b) hwide.busBytes
  refine ⟨rfl, fun k => ?_, fun k hk => ?_⟩
  · have hkeep := h.tkeep k
    rw [← hword] at hkeep
    show (decide (_ < length) && (!(true && beat.tlast) || beat.tkeep k)) = _
    rw [hkeep]
    cases decide (c.axi.axiStrbWidth * b + k < length) <;> simp
  · rw [hword] at hk ⊢
    rw [← Nat.add_assoc]
    exact h.tdata k hk

/-- The stores of the first beats are the first words of the copy. -/
lemma stores_ok (ramaddr : ℕ) (hwide : c.rd.Wide512) {l : List (AxisBeat c.rd.busBytes)} (h : StreamOk mem address length l)
    (hlen : l.length ≤ (length + 63) / 64) :
    ((AxiDesc.mk ramaddr length).stores c.axi l).length = l.length ∧
    ∀ b w, ((AxiDesc.mk ramaddr length).stores c.axi l)[b]? = some w →
      CopyStore c.axi.toAxiConfig mem address ramaddr length b w := by
  have hbytes : c.axi.axiStrbWidth = 64 := hwide.busBytes
  have hcount : l.length ≤ Chunks.count c.axi.axiStrbWidth length := by
    rw [Chunks.count, hbytes]
    exact hlen
  have hall : (AxiDesc.mk ramaddr length).stores c.axi l = l.mapIdx (AxiDesc.store c.axi ⟨ramaddr, length⟩) := by
    rw [AxiDesc.stores, List.take_of_length_le hcount]
  rw [hall]
  refine ⟨List.length_mapIdx, fun b w hw => ?_⟩
  rw [List.getElem?_mapIdx] at hw
  obtain ⟨beat, hbeat, rfl⟩ := Option.map_eq_some_iff.mp hw
  exact copyStore hwide (h b beat hbeat)

end Run

/-! ### The copy -/

section Transfer

variable {s : AxiRdDma c} {i : ℕ → AxiRdDmaInput c} {address length ramaddr : ℕ} {mem : HostMem}

lemma writer_frames (hok : TransferOk c address length) (hquiet : s.Quiet)
    (hstart : StartsOnce i address length ramaddr) (hlegal : ∀ t, (reader s i t).Legal mem (rdInputs s i t)) (t : ℕ) :
    ∃ g q, AxiDmaWrSystem.Inv (writer s i (t + 2)) g q ∧
      (writer s i (t + 2)).made q = AxiDmaWrSystem.madeLog s.dmaAxiWr (wrInputs s i) (t + 2) ∧
      g.stores = (AxiDesc.mk ramaddr length).stores c.axi (reader s i (t + 2)).delivered ∧
      (g.busy = none ↔ (reader s i (t + 2)).delivered.any AxisBeat.tlast = true) := by
  obtain ⟨g, q, hinv, hmade⟩ := AxiDmaWrSystem.Inv.run hquiet.writer (inputOk hok hquiet hstart hlegal) (t + 2)
  have hone : g.accepted = [⟨ramaddr, length⟩] := hinv.accepted.symm.trans (accepted_eq hquiet hstart t)
  have htaken : g.taken = (reader s i (t + 2)).delivered := hinv.taken.symm.trans (taken_eq s i (t + 2))
  obtain ⟨hstores, hbusy⟩ := hinv.framed.single hone
  rw [htaken] at hstores hbusy
  exact ⟨g, q, hinv, hmade, hstores, hbusy⟩

/-- Every store of the descriptor writes a byte. -/
lemma stores_effective (hwide : c.rd.Wide512) {l : List (AxisBeat c.rd.busBytes)} (h : StreamOk mem address length l)
    (hlen : l.length ≤ (length + 63) / 64) : ((AxiDesc.mk ramaddr length).stores c.axi l).filter CardStore.effective =
      (AxiDesc.mk ramaddr length).stores c.axi l := by
  obtain ⟨hl, hcopy⟩ := stores_ok ramaddr hwide h hlen
  rw [List.filter_eq_self]
  intro w hw
  obtain ⟨b, hb⟩ := List.mem_iff_getElem?.mp hw
  have hlt := (List.getElem?_eq_some_iff.mp hb).1
  refine (hcopy b w hb).effective ?_
  show 2 ^ c.rd.offsetWidth * b < length
  rw [hwide.offsetWidth]
  omega

/-- What is stored is a first part of the copy. -/
theorem cardAfter_stored (hok : TransferOk c address length) (hquiet : s.Quiet)
    (hstart : StartsOnce i address length ramaddr) (hlegal : ∀ t, (reader s i t).Legal mem (rdInputs s i t))
    (card : CardMem) (t : ℕ) : cardAfter card (writer s i t).stored = card.copied c.axi.toAxiConfig mem address ramaddr
      (min (c.axi.axiStrbWidth * ((writer s i t).stored.filter CardStore.effective).length) length) := by
  obtain ⟨g, q, hinv, -, hstores, -⟩ := writer_frames hok hquiet hstart hlegal t
  obtain ⟨hbeats, hlen⟩ := delivered_ok hok hquiet hstart hlegal (t + 2)
  have hbegin := hinv.stored_begins
  rw [hstores, stores_effective hok.wide hbeats hlen] at hbegin
  have hpre : (writer s i t).stored.filter CardStore.effective <+:
      (AxiDesc.mk ramaddr length).stores c.axi (reader s i (t + 2)).delivered :=
    ((AxiDmaWrSystem.stored_mono s.dmaAxiWr (wrInputs s i) (Nat.le_add_right t 2)).filter _).trans hbegin
  obtain ⟨hl, hcopy⟩ := stores_ok ramaddr hok.wide hbeats hlen
  rw [← cardAfter_filter]
  apply cardAfter_copied hok.fits
  · intro b w hb
    obtain ⟨l, hl⟩ := hpre
    apply hcopy b w
    rw [← hl, List.getElem?_append_left (List.getElem?_eq_some_iff.mp hb).1, hb]
  · refine (hpre.length_le.trans hl.le).trans ?_
    have hbytes : c.axi.axiStrbWidth = 64 := hok.wide.busBytes
    rw [Chunks.count, hbytes]
    exact hlen

/-! ### The copy is completed -/

/-- A beat of the engine stays until the writer takes it. -/
lemma streamHeld (s : AxiRdDma c) (i : ℕ → AxiRdDmaInput c) : AxiDmaWrSystem.StreamHeld s.dmaAxiWr (wrInputs s i) := by
  intro t hv hr
  have hr' : (writer s i t).engine.reg.sAxisWriteDataTreadyReg = false := hr
  rw [writer_engine] at hr'
  obtain ⟨beat, hout⟩ : ∃ beat, (run s i (t + 1)).axiRd.pcieAxisRd.out =
      (run s i t).axiRd.pcieAxisRd.out.step outputFifoAddrWidthRd (run s i t).axiRd.pcieAxisRd.emit beat
        (run s i t).dmaAxiWr.reg.sAxisWriteDataTreadyReg := ⟨_, rfl⟩
  show (run s i (t + 1)).axiRd.pcieAxisRd.out.outValidReg = true
  rw [hout, hr']
  exact (OutFifo.step_hold _ _ _ hv).1

/-- The `tready` flag matters only when a beat is valid. -/
def readyUnlessValid (s : AxiRdDma c) (i : ℕ → AxiRdDmaInput c) (t : ℕ) : RdInput c.rd :=
  { rdInputs s i t with
    mAxisTlpTready := (rdInputs s i t).mAxisTlpTready || !(run s i t).axiRd.pcieAxisRd.out.outValidReg }

lemma reader_ready (s : AxiRdDma c) (i : ℕ → AxiRdDmaInput c) (t : ℕ) :
    (RdSystem.fresh s.axiRd.pcieAxisRd).run (readyUnlessValid s i) t = reader s i t := by
  induction t with
  | zero => rfl
  | succ t ih =>
    rw [RdSystem.run, ih]
    show _ = (reader s i t).step (rdInputs s i t)
    have hv : (run s i t).axiRd.pcieAxisRd.out.outValidReg = (reader s i t).engine.out.outValidReg := by
      rw [reader_engine]
    have hengine : rdStep (reader s i t).engine (readyUnlessValid s i t) =
        rdStep (reader s i t).engine (rdInputs s i t) := by
      unfold rdStep readyUnlessValid
      rw [hv]
      exact congrArg (RdState.mk _ _ _ _ _) (OutFifo.step_ready _ _ _ _ _)
    unfold RdSystem.step
    rw [hengine]
    have hdelivered : ((reader s i t).engine.out.outValidReg && (readyUnlessValid s i t).mAxisTlpTready) =
        ((reader s i t).engine.out.outValidReg && (rdInputs s i t).mAxisTlpTready) := by
      unfold readyUnlessValid
      rw [hv]
      cases (reader s i t).engine.out.outValidReg <;> simp
    rw [hdelivered]
    rfl

/-- While a beat is offered the frame is not complete, so that the writer takes it. -/
lemma consumed (hok : TransferOk c address length) (hquiet : s.Quiet) (hstart : StartsOnce i address length ramaddr)
    (hlegal : ∀ t, (reader s i t).Legal mem (rdInputs s i t)) (hfair : Fair s i) (t : ℕ) :
    ∃ u, t ≤ u ∧ (readyUnlessValid s i u).mAxisTlpTready = true := by
  by_contra hnone
  have hno : ∀ u, t ≤ u → (run s i u).dmaAxiWr.reg.sAxisWriteDataTreadyReg = false ∧
      (run s i u).axiRd.pcieAxisRd.out.outValidReg = true := by
    intro u hu
    have hat : ((run s i u).dmaAxiWr.reg.sAxisWriteDataTreadyReg ||
        !(run s i u).axiRd.pcieAxisRd.out.outValidReg) = false :=
      Bool.eq_false_of_not_eq_true fun hyes => hnone ⟨u, hu, hyes⟩
    rw [Bool.or_eq_false_iff, Bool.not_eq_false'] at hat
    exact hat
  obtain ⟨g, q, hinv, -, -, hbusy⟩ := writer_frames hok hquiet hstart hlegal t
  have hvalid : (reader s i (t + 2)).engine.out.outValidReg = true := by
    rw [reader_engine]
    exact (hno (t + 2) (by omega)).2
  have hopen : g.busy ≠ none := by
    intro hidle
    obtain ⟨beat, hmem, hlast⟩ := List.any_eq_true.mp (hbusy.mp hidle)
    obtain ⟨b, hb⟩ := List.mem_iff_getElem?.mp hmem
    have hlt := (List.getElem?_eq_some_iff.mp hb).1
    obtain ⟨hbeats, hlen⟩ := offered_ok hok hquiet hstart hlegal (t + 2)
    have hat := (hbeats.left b beat hb).tlast
    rw [hlast] at hat
    have hend := of_decide_eq_true hat.symm
    rw [hvalid, if_pos rfl, List.length_append, List.length_singleton] at hlen
    omega
  obtain ⟨u, hu, htake⟩ := AxiDmaWrSystem.taken_grows hquiet.writer (inputOk hok hquiet hstart hlegal) hfair.slave
    (streamHeld s i) hinv hopen (hno (t + 2) (by omega)).2
  have hready : (writer s i u).engine.reg.sAxisWriteDataTreadyReg = false := by
    rw [writer_engine]
    exact (hno u (by omega)).1
  have htake' : ((writer s i u).engine.reg.sAxisWriteDataTreadyReg && (wrInputs s i u).sAxisWriteDataTvalid) = true :=
    htake
  rw [hready] at htake'
  cases htake'

/-- The engine hands all beats on, and is quiet then. -/
lemma exists_delivered (hok : TransferOk c address length) (hquiet : s.Quiet)
    (hstart : StartsOnce i address length ramaddr) (hlegal : ∀ t, (reader s i t).Legal mem (rdInputs s i t))
    (hfair : Fair s i) : ∃ t₁, ∀ t, t₁ ≤ t → (reader s i t).delivered.length = (length + 63) / 64 ∧
      (run s i t).axiRd.pcieAxisRd.Quiet := by
  have haligned := hok.aligned
  have hstart' : FpgaPcie.StartsOnce (readyUnlessValid s i) address length :=
    ⟨hstart.pulse, hstart.address, hstart.length, hstart.low⟩
  have hlegal' : ∀ t, ((RdSystem.fresh s.axiRd.pcieAxisRd).run (readyUnlessValid s i) t).Legal mem
      (readyUnlessValid s i t) := by
    intro t
    rw [reader_ready]
    exact ⟨(hlegal t).ready, (hlegal t).answers⟩
  have hfair' : (RdSystem.fresh s.axiRd.pcieAxisRd).Fair (readyUnlessValid s i) := by
    refine ⟨fun t tag hne => ?_, consumed hok hquiet hstart hlegal hfair⟩
    rw [reader_ready] at hne
    exact hfair.answered t tag hne
  obtain ⟨t₁, ht₁⟩ := started_delivers hok.wide (by omega) hok.lt64 hok.pos hok.lt hquiet.engine hstart' hlegal' hfair'
  refine ⟨t₁ + 1, fun t ht => ?_⟩
  obtain ⟨t, rfl⟩ := Nat.exists_eq_add_of_le' (Nat.le_of_succ_le ht)
  obtain ⟨d, hd⟩ := Nat.exists_eq_add_of_le' (show 1 ≤ t + t₁ by omega)
  have hall := ht₁ d (by omega)
  rw [reader_ready, ← hd] at hall
  have hinv := started_inv hok.wide (by omega) hok.lt64 hok.pos hok.lt hquiet.engine (rd_starts hstart) hlegal d
  rw [← hd] at hinv
  have hquiet' := (hinv.quiet_of_delivered hok.wide hall).1
  refine ⟨le_antisymm hinv.delivered_le hall, ?_⟩
  rw [← reader_engine]
  exact hquiet'

/-- With all beats taken the writer comes back to `STATE_IDLE` and gets quiet. -/
lemma writer_quiet (hok : TransferOk c address length) (hquiet : s.Quiet)
    (hstart : StartsOnce i address length ramaddr) (hlegal : ∀ t, (reader s i t).Legal mem (rdInputs s i t))
    (hfair : Fair s i) {t : ℕ} (hall : (reader s i (t + 2)).delivered.any AxisBeat.tlast = true) :
    ∃ u, t + 2 ≤ u ∧ ∀ v, u ≤ v → AxiDmaWrSystem.Quiet (run s i v).dmaAxiWr := by
  have hin := inputOk hok hquiet hstart hlegal
  obtain ⟨g, q, hinv, -, -, hbusy⟩ := writer_frames hok hquiet hstart hlegal t
  have hidle := hbusy.mpr hall
  obtain ⟨v, hv, hstate⟩ : ∃ v, t + 2 ≤ v ∧ (writer s i v).engine.reg.stateReg = .idle := by
    cases hinv.phase with
    | idle hs => exact ⟨t + 2, le_rfl, hs⟩
    | finishBurst left hs _ hcount =>
      exact AxiDmaWrSystem.finishBurst_ends hquiet.writer hin hfair.slave left (t + 2) ⟨hs, hcount⟩
    | start d _ hd => exact absurd (hidle.symm.trans hd) (by simp)
    | write d left _ hw => exact absurd (hidle.symm.trans hw.busy) (by simp)
    | dropData d _ hd => exact absurd (hidle.symm.trans hd) (by simp)
  have hstay : ∀ u, v ≤ u → (writer s i u).engine.reg.stateReg = .idle := by
    intro u hu
    induction u, hu using Nat.le_induction with
    | base => exact hstate
    | succ u hu ih =>
      show ((writer s i u).engine.regNext (wrInputs s i u)).stateReg = .idle
      rw [(writer s i u).engine.stateReg_idle _ ih]
      obtain ⟨d, rfl⟩ := Nat.exists_eq_add_of_le' (show 2 ≤ u by omega)
      have hnone : (writer s i (d + 2)).engine.descAccept (wrInputs s i (d + 2)) = false := by
        simp [AxiDmaWrState.descAccept, wrInputs, wrInput, launched hquiet hstart d]
      rw [hnone]
      rfl
  obtain ⟨u, hu, hall⟩ := AxiDmaWrSystem.exists_quiet hquiet.writer hin hfair.slave hstay
  refine ⟨u, hv.trans hu, fun w hw => ?_⟩
  rw [← writer_engine]
  exact hall w hw

/-- The AXI bursts are legal. -/
lemma bursts_legal (hok : TransferOk c address length) (hquiet : s.Quiet) (hstart : StartsOnce i address length ramaddr)
    (hlegal : ∀ t, (reader s i t).Legal mem (rdInputs s i t)) (t : ℕ) :
    ∀ b ∈ (writer s i t).bursts, b.Legal c.axi.toAxiConfig := by
  obtain ⟨g, q, hinv, -⟩ := AxiDmaWrSystem.Inv.run hquiet.writer (inputOk hok hquiet hstart hlegal) t
  exact hinv.legal

/-- At any time the card memory has a first part of the transfer, and its other bytes are as they were. -/
lemma card_begins (hok : TransferOk c address length) (hquiet : s.Quiet) (hstart : StartsOnce i address length ramaddr)
    (hlegal : ∀ t, (reader s i t).Legal mem (rdInputs s i t)) (card : CardMem) (t : ℕ) : ∃ n, n ≤ length ∧
      cardAfter card (writer s i t).stored = card.copied c.axi.toAxiConfig mem address ramaddr n :=
  ⟨_, min_le_right _ _, cardAfter_stored hok hquiet hstart hlegal card t⟩

/-- With a fair host and a fair card memory it has all of it in the end, and everything is quiet again. -/
lemma card_finishes (hok : TransferOk c address length) (hquiet : s.Quiet)
    (hstart : StartsOnce i address length ramaddr) (hlegal : ∀ t, (reader s i t).Legal mem (rdInputs s i t))
    (card : CardMem) (hfair : Fair s i) : ∃ t₁, ∀ t, t₁ ≤ t →
      cardAfter card (writer s i t).stored = card.copied c.axi.toAxiConfig mem address ramaddr length ∧
      (run s i t).Quiet := by
  have hcard := cardAfter_stored hok hquiet hstart hlegal card
  have hin := inputOk hok hquiet hstart hlegal
  obtain ⟨t₁, hdelivered⟩ := exists_delivered hok hquiet hstart hlegal hfair
  have hlen := (hdelivered (t₁ + 2) (by omega)).1
  have hbeats := (delivered_ok hok hquiet hstart hlegal (t₁ + 2)).1
  have hpos := hok.pos
  -- the last beat is among them
  have hlast : (reader s i (t₁ + 2)).delivered.any AxisBeat.tlast = true := by
    have hlt : (length + 63) / 64 - 1 < (reader s i (t₁ + 2)).delivered.length := by omega
    have hbeat := (hbeats _ _ (List.getElem?_eq_getElem hlt)).tlast
    rw [decide_eq_true (by omega)] at hbeat
    exact List.any_eq_true.mpr ⟨_, List.getElem_mem hlt, hbeat⟩
  obtain ⟨u, hu, hwriter⟩ := writer_quiet hok hquiet hstart hlegal hfair hlast
  obtain ⟨g, q, hinv, hmade, hstores, -⟩ := writer_frames hok hquiet hstart hlegal t₁
  obtain ⟨v, hv, hgrows⟩ := AxiDmaWrSystem.stored_grows hquiet.writer hin hfair.slave (t₁ + 2)
  refine ⟨max u v, fun t ht => ⟨?_, ?_⟩⟩
  · have hall : (AxiDesc.mk ramaddr length).stores c.axi (reader s i (t₁ + 2)).delivered <+:
        (writer s i t).stored.filter CardStore.effective := by
      have hmono := AxiDmaWrSystem.stored_mono s.dmaAxiWr (wrInputs s i) ((le_max_right u v).trans ht)
      rw [← stores_effective hok.wide hbeats hlen.le, ← hstores, ← hinv.stores, hmade]
      exact (hgrows.trans hmono).filter _
    have hle := hall.length_le
    rw [(stores_ok ramaddr hok.wide hbeats hlen.le).1, hlen] at hle
    have hword : ∀ n, c.axi.axiStrbWidth * n = 64 * n := fun n => congrArg (· * n) hok.wide.busBytes
    rw [hcard t, min_eq_right]
    rw [hword]
    omega
  · have ht₂ : 2 ≤ t := by omega
    obtain ⟨d, rfl⟩ := Nat.exists_eq_add_of_le' ht₂
    exact ⟨launched hquiet hstart d, hstart.low (d + 1) (Nat.succ_pos d), (hdelivered (d + 2) (by omega)).2,
      hwriter (d + 2) ((le_max_left u v).trans ht)⟩

end Transfer

/-- A host that owes anything owes an answer for a tag of the engine. -/
lemma owingTag_isSome {s : AxiRdDma c} {i : ℕ → AxiRdDmaInput c} {address length ramaddr : ℕ} {mem : HostMem}
    (hok : TransferOk c address length) (hquiet : s.Quiet) (hstart : StartsOnce i address length ramaddr)
    (hlegal : ∀ t, (reader s i t).Legal mem (rdInputs s i t)) {t tag : ℕ} (hne : (reader s i t).owed tag ≠ []) :
    (reader s i t).owingTag.isSome = true := by
  have haligned := hok.aligned
  have hlt : tag < 256 := by
    cases t with
    | zero => exact absurd rfl hne
    | succ t =>
      have hinv := started_inv hok.wide (by omega) hok.lt64 hok.pos hok.lt hquiet.engine (rd_starts hstart) hlegal t
      by_contra hge
      have htags : 2 ^ c.rd.pcieTagWidth ≤ 2 ^ 8 := Nat.pow_le_pow_right (by omega) c.rd.pcieTagWidth_le
      exact hne (hinv.data.owed tag (by omega))
  rw [RdSystem.owingTag, List.find?_isSome]
  exact ⟨tag, List.mem_range.mpr hlt, by simpa using hne⟩

/-- At any time the card memory has a first part of the transfer, and its other bytes are as they were. With a fair
host and a fair card memory it has all of it in the end, and everything is quiet again. -/
theorem h2c_copies_host_memory (mem : HostMem) (card : CardMem) (s : AxiRdDma c) (i : ℕ → AxiRdDmaInput c)
    (address length ramaddr : ℕ) (hok : TransferOk c address length) (hquiet : s.Quiet)
    (hstart : StartsOnce i address length ramaddr) (hlegal : ∀ t, (reader s i t).Legal mem (rdInputs s i t)) :
    (∀ t, ∃ n, n ≤ length ∧
      cardAfter card (writer s i t).stored = card.copied c.axi.toAxiConfig mem address ramaddr n) ∧
    (∀ t, ∀ b ∈ (writer s i t).bursts, b.Legal c.axi.toAxiConfig) ∧
    (Fair s i → ∃ t₁, ∀ t, t₁ ≤ t →
      cardAfter card (writer s i t).stored = card.copied c.axi.toAxiConfig mem address ramaddr length ∧
      (run s i t).Quiet) := by
  exact ⟨card_begins hok hquiet hstart hlegal card, bursts_legal hok hquiet hstart hlegal,
    card_finishes hok hquiet hstart hlegal card⟩

/-! ### A host and a card memory that answer at once -/

section Served

variable (mem : HostMem) (address length ramaddr : ℕ) (s : AxiRdDma c)

/-- The host answers the lowest tag, and the card memory answers each complete burst. -/
def serve (t : ℕ) (x : RdSystem c.rd) (y : AxiDmaWrSystem c.axi) : AxiRdDmaInput c where
  descTxRdReqLength := length
  descTxRdReqAddress := address
  descTxRdReqStart := t == 0
  descTxRdReqRamaddr := ramaddr
  txRdReqTlpReady := true
  rxCplTlpValid := x.owingTag.isSome
  rxCplTlpHdr := cplHdrOfTag (x.owingTag.getD 0)
  rxCplTlpData := (x.serve mem address length t).rxCplTlpData
  mAxiAwready := true
  mAxiWready := true
  mAxiBvalid := decide (y.answered < y.finished)

/-- The module with the logs of the engine and of the writer. -/
def served : ℕ → AxiRdDma c × RdSystem c.rd × AxiDmaWrSystem c.axi
  | 0 => (s, RdSystem.fresh s.axiRd.pcieAxisRd, ⟨s.dmaAxiWr, [], [], [], [], 0⟩)
  | t + 1 =>
    let i := serve mem address length ramaddr t (served t).2.1 (served t).2.2
    ((served t).1.step i, (served t).2.1.step ((served t).1.rdInput i).toRdInput,
      (served t).2.2.step ((served t).1.wrInput i))

def servedInput (t : ℕ) : AxiRdDmaInput c :=
  serve mem address length ramaddr t (served mem address length ramaddr s t).2.1 (served mem address length ramaddr s t).2.2

lemma run_served (t : ℕ) : run s (servedInput mem address length ramaddr s) t =
    (served mem address length ramaddr s t).1 := by
  induction t with
  | zero => rfl
  | succ t ih => rw [run, ih, served, servedInput]

lemma reader_served (t : ℕ) : reader s (servedInput mem address length ramaddr s) t =
    (served mem address length ramaddr s t).2.1 := by
  induction t with
  | zero => rfl
  | succ t ih =>
    show (reader s (servedInput mem address length ramaddr s) t).step
      (rdInputs s (servedInput mem address length ramaddr s) t) = _
    rw [ih, rdInputs, run_served, served, servedInput]

lemma writer_served (t : ℕ) : writer s (servedInput mem address length ramaddr s) t =
    (served mem address length ramaddr s t).2.2 := by
  induction t with
  | zero => rfl
  | succ t ih =>
    show (writer s (servedInput mem address length ramaddr s) t).step
      (wrInputs s (servedInput mem address length ramaddr s) t) = _
    rw [ih, wrInputs, run_served, served, servedInput]

lemma served_starts : StartsOnce (servedInput mem address length ramaddr s) address length ramaddr := by
  refine ⟨rfl, fun t ht => ?_, rfl, rfl, rfl, rfl⟩
  show (t == 0) = false
  rw [beq_eq_false_iff_ne]
  omega

lemma served_legal (t : ℕ) : (reader s (servedInput mem address length ramaddr s) t).Legal mem
    (rdInputs s (servedInput mem address length ramaddr s) t) := by
  rw [reader_served]
  have hlegal := RdSystem.serve_legal mem address length t (served mem address length ramaddr s t).2.1
  exact ⟨fun _ => rfl, hlegal.answers⟩

lemma served_slave : AxiDmaWrSystem.SlaveFair s.dmaAxiWr (wrInputs s (servedInput mem address length ramaddr s)) := by
  have hsame : ∀ t, AxiDmaWrSystem.run s.dmaAxiWr (wrInputs s (servedInput mem address length ramaddr s)) t =
      (served mem address length ramaddr s t).2.2 := writer_served mem address length ramaddr s
  refine ⟨fun t _ => ⟨t, le_rfl, rfl⟩, fun t _ => ⟨t, le_rfl, rfl⟩, fun t hlt => ⟨t, le_rfl, ?_⟩, fun t hv hr => ?_⟩
  · rw [hsame] at hlt
    exact decide_eq_true hlt
  · have hlt : (served mem address length ramaddr s t).2.2.answered < (served mem address length ramaddr s t).2.2.finished :=
      of_decide_eq_true hv
    rw [← hsame] at hlt
    have hanswered := AxiDmaWrSystem.answered_succ (s := s.dmaAxiWr)
      (i := wrInputs s (servedInput mem address length ramaddr s)) t
    rw [hr, Bool.false_and, Bool.toNat_false, Nat.add_zero] at hanswered
    have hmono := AxiDmaWrSystem.finished_mono s.dmaAxiWr (wrInputs s (servedInput mem address length ramaddr s)) t
    refine decide_eq_true ?_
    rw [← hsame, hanswered]
    omega

lemma served_fair (hok : TransferOk c address length) (hquiet : s.Quiet) :
    Fair s (servedInput mem address length ramaddr s) := by
  refine ⟨fun t tag hne => ⟨t, le_rfl, ?_⟩, served_slave mem address length ramaddr s⟩
  have howing := owingTag_isSome hok hquiet (served_starts mem address length ramaddr s)
    (served_legal mem address length ramaddr s) hne
  rw [reader_served] at howing
  exact howing

end Served

/-- 1000 host bytes go to card address 4032, in a first burst of one word and a second one of 15. -/
theorem h2c_copies_served :
    let c : AxiRdConfig := ⟨⟨6, 5, 0, 2, tagWidth_five, payloadSize_two⟩, 16, 64, by decide, by decide, by decide, by decide⟩
    let mem : HostMem := fun a => BitVec.ofNat 8 a
    let i := servedInput mem 8192 1000 4032 (reset c)
    ∃ t₁, ∀ t, t₁ ≤ t →
      cardAfter (fun _ => 0) (writer (reset c) i t).stored =
        CardMem.copied c.axi.toAxiConfig (fun _ => 0) mem 8192 4032 1000 ∧ (run (reset c) i t).Quiet := by
  intro c mem i
  have hok : TransferOk c 8192 1000 := ⟨⟨rfl, rfl⟩, by decide, by decide, by decide, by decide, by decide⟩
  exact (h2c_copies_host_memory mem (fun _ => 0) (reset c) i 8192 1000 4032 hok (reset_quiet c)
    (served_starts mem 8192 1000 4032 (reset c)) (served_legal mem 8192 1000 4032 (reset c))).2.2
    (served_fair mem 8192 1000 4032 (reset c) hok (reset_quiet c))

end AxiRdDma

end FpgaPcie
