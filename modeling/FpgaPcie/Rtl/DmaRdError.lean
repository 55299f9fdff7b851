import FpgaPcie.Rtl.DmaRdReassembly

/-!
# Error completions

The engine reads no more of a completion header than the tag, and no bit of `rx_cpl_tlp_error`. To
say what becomes of the beats of an error completion, every word gets a mark on its way through the
data FIFOs and the output FIFO.
-/

namespace FpgaPcie

variable {c : RdConfig}

/-- `CPL_STATUS_SC`: successful completion. -/
def cplStatusSc : BitVec 3 := 0b000#3

def pcieErrorNone : BitVec 4 := 0#4

def pcieErrorPoisoned : BitVec 4 := 1#4

def rxCplTlpHdrCplStatus (hdr : BitVec 128) : BitVec 3 := hdr.extractLsb' 77 3

/-- The inputs of the engine with `rx_cpl_tlp_error`. -/
structure CplInput (c : RdConfig) extends RdInput c where
  rxCplTlpError : BitVec 4

/-- The completion on the port is an error completion. -/
def CplInput.isError (i : CplInput c) : Bool :=
  rxCplTlpHdrCplStatus i.rxCplTlpHdr != cplStatusSc || i.rxCplTlpError != pcieErrorNone

/-! ### What the engine reads -/

section Unread

lemma stores_hdr (s : RdState c) (i : RdInput c) {hdr : BitVec 128}
    (h : rxCplTlpHdrTag hdr = rxCplTlpHdrTag i.rxCplTlpHdr) :
    s.stores { i with rxCplTlpHdr := hdr } = s.stores i := by
  funext tag
  simp only [RdState.stores, h]
  rfl

lemma rdStep_hdr (s : RdState c) (i : RdInput c) {hdr : BitVec 128}
    (h : rxCplTlpHdrTag hdr = rxCplTlpHdrTag i.rxCplTlpHdr) :
    rdStep s { i with rxCplTlpHdr := hdr } = rdStep s i := by
  have hrecv : ∀ req, recvStep s { i with rxCplTlpHdr := hdr } req = recvStep s i req := by
    intro req
    simp only [recvStep, stores_hdr s i h]
    rfl
  simp only [rdStep, hrecv]
  rfl

/-- An error completion is received as a successful one. -/
theorem rdRun_errors (i : ℕ → CplInput c) (hdr : ℕ → BitVec 128)
    (h : ∀ t, rxCplTlpHdrTag (hdr t) = rxCplTlpHdrTag (i t).rxCplTlpHdr) (t : ℕ) :
    rdRun (rdReset c) (fun t => { (i t).toRdInput with rxCplTlpHdr := hdr t }) t =
      rdRun (rdReset c) (fun t => (i t).toRdInput) t := by
  induction t with
  | zero => rfl
  | succ t ih => rw [rdRun, rdRun, ih, rdStep_hdr _ _ (h t)]

end Unread

/-! ### Marked words -/

/-- The engine with a mark on each word: the word came with an error completion. `goodBeats` counts
the beats of successful completions that the receive FSM has accepted since it left IDLE, the two
flags show whether it has accepted one of an error completion since it and the output FSM left
IDLE. -/
structure RdMarks (c : RdConfig) where
  engine : RdState c
  din : ℕ → Bytes c.busBytes × Bool
  dataFifo : ℕ → BoundedQueue (Bytes c.busBytes × Bool) 16
  out : OutFifo (AxisBeat c.busBytes × Bool)
  goodBeats : ℕ
  recvFailed : Bool
  trFailed : Bool

namespace RdMarks

variable (x : RdMarks c) (i : CplInput c)

/-- The receive FSM accepts a beat of an error completion. -/
def acceptsError : Bool :=
  x.engine.recv.recvStateReg == .start && x.engine.cplAccept i.toRdInput && i.isError

/-- The mark of the beat that the output FSM hands to the output FIFO: that of its word, and on the
last beat of a transfer whether an error completion was accepted for it. -/
def newMark : Bool :=
  (((x.dataFifo x.engine.tag.opTagFifoRdptr).words.head?).any Prod.snd) ||
    ((x.engine.newBeat i.toRdInput).tlast && x.trFailed)

def step : RdMarks c where
  engine := rdStep x.engine i.toRdInput
  din := fun tag => if x.engine.stores i.toRdInput tag then (i.rxCplTlpData, i.isError) else (fun _ => 0, false)
  dataFifo := fun tag => (x.dataFifo tag).clock
    (if x.engine.recv.cpldDataFifoWrEnReg tag then [x.din tag] else [])
    (x.engine.tr.cpldDataFifoRdEnReg tag)
  out := x.out.step outputFifoAddrWidthRd x.engine.emit (x.engine.newBeat i.toRdInput, x.newMark i)
    i.mAxisTlpTready
  goodBeats := match x.engine.recv.recvStateReg with
    | .idle => 0
    | .start => if x.engine.cplAccept i.toRdInput && !i.isError then x.goodBeats + 1 else x.goodBeats
  recvFailed := match x.engine.recv.recvStateReg with
    | .idle => false
    | .start => x.recvFailed || x.acceptsError i
  trFailed := match x.engine.tr.trStateReg with
    | .idle => false
    | .start => x.trFailed || x.acceptsError i

/-- The run out of reset. -/
def run (i : ℕ → CplInput c) : ℕ → RdMarks c
  | 0 => ⟨rdReset c, fun _ => (fun _ => 0, false), fun _ => BoundedQueue.empty _ _,
      OutFifo.reset (⟨fun _ => 0, fun _ => false, false⟩, false), 0, false, false⟩
  | t + 1 => (run i t).step (i t)

lemma run_engine (i : ℕ → CplInput c) (t : ℕ) :
    (run i t).engine = rdRun (rdReset c) (fun t => (i t).toRdInput) t := by
  induction t with
  | zero => rfl
  | succ t ih =>
    rw [rdRun, ← ih]
    rfl

/-- Without the marks these are the words of the engine. -/
structure Follows : Prop where
  din : ∀ tag, (x.din tag).1 = x.engine.recv.cpldDataFifoDinReg tag
  dataFifo : ∀ tag, (x.dataFifo tag).map Prod.fst = x.engine.cpldDataFifo tag
  out : x.out.map Prod.fst = x.engine.out

variable {x i}

lemma Follows.step (h : x.Follows) : (x.step i).Follows where
  din tag := by
    simp only [RdMarks.step, rdStep, recvStep]
    split <;> rfl
  dataFifo tag := by
    simp only [RdMarks.step, rdStep, cpldFifoStep]
    rw [BoundedQueue.map_clock, h.dataFifo, apply_ite (List.map Prod.fst), List.map_singleton,
      List.map_nil, h.din]
  out := by
    simp only [RdMarks.step, rdStep]
    rw [OutFifo.map_step, h.out]
    rfl

theorem follows_run (i : ℕ → CplInput c) (t : ℕ) : (run i t).Follows := by
  induction t with
  | zero => exact ⟨fun _ => rfl, fun _ => rfl, rfl⟩
  | succ t ih => exact ih.step

end RdMarks

/-! ### Errors kept out -/

/-- No beat of an error completion is written to a data FIFO, counted or output, and neither the
interrupt nor the last beat comes for a transfer that has received one. -/
structure ErrorsKeptOut (i : ℕ → CplInput c) : Prop where
  written : ∀ t tag, (RdMarks.run i t).engine.recv.cpldDataFifoWrEnReg tag = true →
    ((RdMarks.run i t).din tag).2 = false
  stored : ∀ t tag, ∀ w ∈ ((RdMarks.run i t).dataFifo tag).words, w.2 = false
  counted : ∀ t, (RdMarks.run i t).engine.recv.cplOpCycleReg = (RdMarks.run i t).goodBeats % 2 ^ 32
  output : ∀ t, (RdMarks.run i t).engine.out.outValidReg = true → (RdMarks.run i t).out.outReg.2 = false
  irq : ∀ t, (RdMarks.run i t).engine.recv.txRdReqIrqReg = true → (RdMarks.run i t).recvFailed = false

/-- No word has a mark. -/
structure RdMarks.Clean (x : RdMarks c) : Prop where
  din : ∀ tag, (x.din tag).2 = false
  dataFifo : ∀ tag, ∀ w ∈ (x.dataFifo tag).words, w.2 = false
  outFifo : ∀ k, (x.out.outFifo k).2 = false
  outReg : x.out.outReg.2 = false
  counted : x.engine.recv.cplOpCycleReg = x.goodBeats % 2 ^ 32
  recvFailed : x.recvFailed = false
  trFailed : x.trFailed = false

section Clean

variable {x : RdMarks c} {i : CplInput c}

lemma RdMarks.Clean.newMark (h : x.Clean) : x.newMark i = false := by
  have hword : ((x.dataFifo x.engine.tag.opTagFifoRdptr).words.head?).any Prod.snd = false := by
    cases hw : (x.dataFifo x.engine.tag.opTagFifoRdptr).words with
    | nil => rfl
    | cons w ws => exact h.dataFifo _ w (hw ▸ List.mem_cons_self)
  rw [RdMarks.newMark, hword, h.trFailed, Bool.and_false, Bool.or_false]

/-- A cycle in which no beat of an error completion is accepted brings in no mark. -/
theorem RdMarks.Clean.step (hgood : x.acceptsError i = false) (h : x.Clean) : (x.step i).Clean where
  din tag := by
    simp only [RdMarks.step]
    split
    · rename_i hs
      simp only [RdState.stores, Bool.and_eq_true] at hs
      simpa [RdMarks.acceptsError, hs.1.1, hs.1.2] using hgood
    · rfl
  dataFifo tag w hw := by
    have hmem := (BoundedQueue.clock_sublist _ _ _).subset hw
    rcases List.mem_append.mp hmem with hold | hnew
    · refine h.dataFifo tag w ?_
      split at hold
      · exact List.mem_of_mem_tail hold
      · exact hold
    · split at hnew
      · rw [List.mem_singleton.mp hnew]
        exact h.din tag
      · cases hnew
  outFifo k := by
    simp only [RdMarks.step, OutFifo.step]
    split
    · rw [Function.update_apply]
      split
      · exact h.newMark
      · exact h.outFifo k
    · exact h.outFifo k
  outReg := by
    simp only [RdMarks.step, OutFifo.step]
    split
    · exact h.outFifo _
    · exact h.outReg
  counted := by
    simp only [RdMarks.step, rdStep, recvStep, RdState.cplOpCycleNext]
    cases hs : x.engine.recv.recvStateReg with
    | idle => rfl
    | start =>
      simp only [h.counted]
      cases ha : x.engine.cplAccept i.toRdInput with
      | false => simp
      | true =>
        have herr : i.isError = false := by simpa [RdMarks.acceptsError, hs, ha] using hgood
        simp only [herr, if_true, Bool.not_false, Bool.and_self]
        exact Nat.mod_add_mod _ _ _
  recvFailed := by
    simp only [RdMarks.step, h.recvFailed, hgood]
    cases x.engine.recv.recvStateReg <;> rfl
  trFailed := by
    simp only [RdMarks.step, h.trFailed, hgood]
    cases x.engine.tr.trStateReg <;> rfl

/-- An accepted beat is written to the data FIFO of its tag with the mark of its completion. -/
lemma RdMarks.step_written (herror : x.acceptsError i = true) :
    (x.step i).engine.recv.cpldDataFifoWrEnReg (rxCplTlpHdrTag i.rxCplTlpHdr % 2 ^ c.pcieTagWidth) = true ∧
      ((x.step i).din (rxCplTlpHdrTag i.rxCplTlpHdr % 2 ^ c.pcieTagWidth)).2 = true := by
  simp only [RdMarks.acceptsError, Bool.and_eq_true] at herror
  obtain ⟨haccept, hbad⟩ := herror
  have hstores : x.engine.stores i.toRdInput (rxCplTlpHdrTag i.rxCplTlpHdr % 2 ^ c.pcieTagWidth) = true := by
    simp [RdState.stores, haccept]
  refine ⟨hstores, ?_⟩
  simp only [RdMarks.step, hstores, if_true, hbad]

end Clean

theorem clean_run (i : ℕ → CplInput c) (hgood : ∀ t, (RdMarks.run i t).acceptsError (i t) = false) (t : ℕ) :
    (RdMarks.run i t).Clean := by
  induction t with
  | zero => exact ⟨fun _ => rfl, fun _ => nofun, fun _ => rfl, rfl, rfl, rfl, rfl⟩
  | succ t ih => exact ih.step (hgood t)

/-- Error completions are kept out exactly when the receive FSM never accepts a beat of one. -/
theorem errors_kept_out_iff (i : ℕ → CplInput c) :
    ErrorsKeptOut i ↔ ∀ t, (RdMarks.run i t).acceptsError (i t) = false := by
  constructor
  · intro h t
    by_contra herror
    obtain ⟨hwr, hbad⟩ := RdMarks.step_written (Bool.eq_true_of_not_eq_false herror)
    have hgood := h.written (t + 1) _ hwr
    rw [RdMarks.run, hbad] at hgood
    cases hgood
  · intro hgood
    have hclean := clean_run i hgood
    exact ⟨fun t tag _ => (hclean t).din tag, fun t => (hclean t).dataFifo, fun t => (hclean t).counted,
      fun t _ => (hclean t).outReg, fun t _ => (hclean t).recvFailed⟩

/-- A descriptor of 64 bytes, answered by a poisoned completion. -/
def answersPoisoned (t : ℕ) : CplInput ⟨6, 5, 0, 2, tagWidth_five, payloadSize_two⟩ where
  descTxRdReqStart := t == 0
  descTxRdReqLength := 64
  descTxRdReqAddress := 4096
  txRdReqTlpReady := true
  rxCplTlpValid := t == 6
  rxCplTlpHdr := cplHdrOfTag 0
  rxCplTlpData := fun _ => 0
  mAxisTlpTready := true
  rxCplTlpError := pcieErrorPoisoned

/-- The interrupt comes in the next cycle. -/
theorem poisoned_irq : ¬ErrorsKeptOut answersPoisoned := by
  intro h
  have hfailed := h.irq 7 (by decide +kernel)
  revert hfailed
  decide +kernel

end FpgaPcie
