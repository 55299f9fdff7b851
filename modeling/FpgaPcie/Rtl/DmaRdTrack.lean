import FpgaPcie.Lib.RingBuffer
import FpgaPcie.Rtl.DmaRdStep

/-!
# The tags of a descriptor in flight

A descriptor is followed by four counts: the MRds accepted, the beats received and emitted, the tags
released. What the registers and FIFOs hold is a function of these counts.
-/

namespace FpgaPcie

variable {c : RdConfig}

/-- The data beats that answer an MRd on a 512-bit bus. -/
def TlpHdr.dataBeats (h : TlpHdr) : ℕ := (4 * h.dwords + 63) / 64

/-- The engine with the tags of the data beats that are still to come, and for each tag the number of beats
of its MRds that have not been popped from its data FIFO. -/
structure RdTrack (c : RdConfig) where
  engine : RdState c
  owed : List ℕ
  unpopped : ℕ → ℕ

/-- A word leaves the data FIFO of this tag. -/
def RdState.pops (s : RdState c) (tag : ℕ) : Bool :=
  s.tr.cpldDataFifoRdEnReg tag && !(s.cpldDataFifo tag).words.isEmpty

namespace RdTrack

variable (x : RdTrack c) (i : RdInput c)

def owedNext : List ℕ :=
  (if x.engine.cplAccept i then x.owed.erase (rxCplTlpHdrTag i.rxCplTlpHdr) else x.owed) ++
    if x.engine.req.accept i then
      List.replicate x.engine.req.txRdReqTlpHdrReg.dataBeats x.engine.req.txRdReqTlpHdrReg.tag else []

def unpoppedNext (tag : ℕ) : ℕ :=
  x.unpopped tag + (if x.engine.req.accept i ∧ tag = x.engine.req.txRdReqTlpHdrReg.tag then
    x.engine.req.txRdReqTlpHdrReg.dataBeats else 0) - (x.engine.pops tag).toNat

def step : RdTrack c where
  engine := rdStep x.engine i
  owed := x.owedNext i
  unpopped := x.unpoppedNext i

/-- The run out of reset. -/
def run (i : ℕ → RdInput c) : ℕ → RdTrack c
  | 0 => ⟨rdReset c, [], fun _ => 0⟩
  | t + 1 => (run i t).step (i t)

/-- The MRd port is ready whenever an MRd is offered, and the host sends only the beats it owes. -/
structure Legal : Prop where
  ready : x.engine.req.txRdReqTlpValidReg = true → i.txRdReqTlpReady = true
  answers : i.rxCplTlpValid = true → rxCplTlpHdrTag i.rxCplTlpHdr ∈ x.owed

/-- An MRd with this tag is on the port or has been accepted, and not all of its beats have been popped. -/
def Outstanding (tag : ℕ) : Prop :=
  x.engine.req.txRdReqTlpValidReg = true ∧ x.engine.req.txRdReqTlpHdrReg.tag = tag ∨ 0 < x.unpopped tag

/-- The tags from the read pointer on that `op_tag_fifo` counts. -/
def InWindow (tag : ℕ) : Prop :=
  RingBuffer.InWindow (2 ^ c.pcieTagWidth) x.engine.tag.opTagFifoRdptr x.engine.tag.opTagFifo.words.length tag

/-- No tag is in use and no release is pending. -/
def TagsFree : Prop := x.engine.tag.opTagFifo.words = [] ∧ x.engine.tag.opTagFifoRd = false

end RdTrack

/-! ### The requests of a descriptor -/

/-- The bytes that the request FSM asks for: a length of zero is taken for `2 ^ 32` requests. -/
def reqSpan (length : ℕ) : ℕ := if length = 0 then 512 * 2 ^ 32 else length

def RdState.span (s : RdState c) : ℕ := reqSpan s.req.descTxRdReqLengthReg

lemma reqSpan_pos (length : ℕ) : 0 < reqSpan length := by
  unfold reqSpan
  split <;> omega

lemma reqSpan_le {length : ℕ} (hlen : length < 2 ^ 32) : reqSpan length ≤ 512 * 2 ^ 32 := by
  unfold reqSpan
  split <;> omega

lemma trCycleNext_span (hc : c.Wide512) {length : ℕ} (hlen : length < 2 ^ 32) :
    trCycleNext c length = (reqSpan length + 511) / 512 % 2 ^ 32 := by
  rw [trCycleNext_eq hlen, hc.reqCount]
  unfold reqSpan
  split <;> omega

lemma beatCycles_span (hc : c.Wide512) {length : ℕ} (hlen : length < 2 ^ 32) :
    beatCycles c length = (reqSpan length + 63) / 64 % 2 ^ 32 := by
  rw [beatCycles_eq hlen, hc.beatCount]
  unfold reqSpan
  split <;> omega

section Request

variable {r : ReqReg} {k : ℕ}

lemma lastRequest_span (hlen : r.descTxRdReqLengthReg < 2 ^ 32)
    (hk : k < (reqSpan r.descTxRdReqLengthReg + 511) / 512)
    (htr : r.trCycleReg = (reqSpan r.descTxRdReqLengthReg + 511) / 512 % 2 ^ 32) (hop : r.opCycleReg = k) :
    r.lastRequest = decide (k + 1 = (reqSpan r.descTxRdReqLengthReg + 511) / 512) := by
  have hle := reqSpan_le hlen
  rw [ReqReg.lastRequest, htr, hop, Bool.beq_eq_decide_eq]
  exact decide_eq_decide.mpr (by omega)

lemma dataBeats_mrdHdr (hc : c.Wide512) (r : ReqReg) (tag : ℕ) :
    (mrdHdr c r tag).dataBeats = byteCycleNext c r := by
  have hfull : fullByteCycle c = 8 := by
    rw [fullByteCycle, hc.maxReadPayloadSize, hc.offsetWidth]
    rfl
  have hwide : ((2 ^ 6 >>> 2) <<< ((5 + 8 - 2) % 8)) % 2 ^ 10 = 128 := rfl
  simp only [TlpHdr.dataBeats, TlpHdr.dwords, mrdHdr, tagIdxLengthNext, byteCycleNext, hfull,
    hc.offsetWidth, hc.maxReadPayloadSize, hwide]
  cases r.lastRequest with
  | false => norm_num
  | true =>
    norm_num
    split_ifs <;> first | contradiction | omega

lemma byteCycleNext_span (hc : c.Wide512) (hlen : r.descTxRdReqLengthReg < 2 ^ 32)
    (hk : k < (reqSpan r.descTxRdReqLengthReg + 511) / 512)
    (htr : r.trCycleReg = (reqSpan r.descTxRdReqLengthReg + 511) / 512 % 2 ^ 32) (hop : r.opCycleReg = k) :
    byteCycleNext c r = endBeat (reqSpan r.descTxRdReqLengthReg) k - 8 * k := by
  have hfull : fullByteCycle c = 8 := by
    rw [fullByteCycle, hc.maxReadPayloadSize, hc.offsetWidth]
    rfl
  have hspan : reqSpan r.descTxRdReqLengthReg =
      if r.descTxRdReqLengthReg = 0 then 512 * 2 ^ 32 else r.descTxRdReqLengthReg := rfl
  simp only [byteCycleNext, lastRequest_span hlen hk htr hop, hfull, hc.offsetWidth,
    hc.maxReadPayloadSize, endBeat]
  by_cases hl : k + 1 = (reqSpan r.descTxRdReqLengthReg + 511) / 512
  · rw [decide_eq_true hl, if_pos rfl]
    split_ifs at hspan ⊢ <;> omega
  · rw [decide_eq_false hl, if_neg Bool.false_ne_true]
    omega

end Request

/-! ### A descriptor in flight -/

/-- How far the descriptor is: the MRds accepted, the beats received and emitted, the tags released. -/
structure Flow where
  requested : ℕ
  received : ℕ
  emitted : ℕ
  popped : ℕ

def Flow.next (g : Flow) (s : RdState c) (i : RdInput c) : Flow where
  requested := g.requested + (s.req.accept i).toNat
  received := g.received + (s.cplAccept i).toNat
  emitted := g.emitted + s.emit.toNat
  popped := g.popped + s.tag.opTagFifoRd.toNat

structure ReqFlight (s : RdState c) (requested : ℕ) : Prop where
  length_lt : s.req.descTxRdReqLengthReg < 2 ^ 32
  idle : s.req.reqStateReg = .idle → requested = (s.span + 511) / 512 ∧
    s.req.txRdReqTlpValidReg = false ∧ s.tag.opTagFifoWe = false ∧ s.req.descTxRdReqStartReg = false
  start : s.req.reqStateReg = .start → requested < (s.span + 511) / 512 ∧
    s.req.trCycleReg = (s.span + 511) / 512 % 2 ^ 32 ∧ s.req.opCycleReg = requested ∧
    s.tag.opTagFifoWrTag = s.allocated requested % 2 ^ c.pcieTagWidth
  valid : s.req.txRdReqTlpValidReg = true → s.tag.opTagFifoWe = false ∧
    s.req.txRdReqTlpHdrReg.tag = requested % 2 ^ c.pcieTagWidth ∧
    s.req.txRdReqTlpHdrReg.dataBeats = endBeat s.span requested - 8 * requested

/-- The tags in use are those of the requests from `g.popped` up to the last one allocated. -/
structure TagFlight (s : RdState c) (g : Flow) : Prop where
  popped_le : g.popped ≤ g.requested
  fifo : s.tag.opTagFifo.words.length = s.allocated g.requested - g.popped
  room : s.tag.opTagFifoWe = true → s.allocated g.requested < g.popped + 2 ^ c.pcieTagWidth
  rdptr : s.tag.opTagFifoRdptr = g.popped % 2 ^ c.pcieTagWidth
  table : ∀ k, g.popped ≤ k → k < g.popped + 2 ^ c.pcieTagWidth →
    s.tag.tagTableInfo (k % 2 ^ c.pcieTagWidth) =
      if k < s.allocated g.requested then endBeat s.span k - 8 * k else 0
  rdEn : ∀ tag, s.tr.cpldDataFifoRdEnReg tag = true →
    tag = g.popped % 2 ^ c.pcieTagWidth ∧ g.popped < g.requested ∧ s.req.descTxRdReqLengthReg ≠ 0
  release : s.tag.opTagFifoRd = true → g.popped < g.requested ∧
    g.emitted = endBeat s.span g.popped ∧ s.tr.cycleReg = 0
  current : s.tag.opTagFifoRd = false → g.popped < (s.span + 511) / 512 →
    8 * g.popped ≤ g.emitted ∧ g.emitted < endBeat s.span g.popped ∧
      s.tr.cycleReg = g.emitted - 8 * g.popped
  finished : s.tag.opTagFifoRd = false → g.popped = (s.span + 511) / 512 →
    g.emitted = (s.span + 63) / 64

/-- The beats of a tag that have not been popped are still to come or in its data FIFO. -/
structure DataFlight (x : RdTrack c) (g : Flow) : Prop where
  emitted_le : g.emitted ≤ 8 * g.requested
  slot : ∀ k, g.popped ≤ k → k < g.popped + 2 ^ c.pcieTagWidth → x.unpopped (k % 2 ^ c.pcieTagWidth) =
    if k < g.requested then endBeat x.engine.span k - max (8 * k) g.emitted else 0
  held : ∀ tag, tag < 2 ^ c.pcieTagWidth →
    x.owed.count tag + (x.engine.arrivedWords tag).length = x.unpopped tag
  owed_lt : ∀ tag ∈ x.owed, tag < 2 ^ c.pcieTagWidth

structure RecvFlight (x : RdTrack c) (g : Flow) : Prop where
  total : g.received + x.owed.length = min (8 * g.requested) ((x.engine.span + 63) / 64)
  first : x.engine.req.descTxRdReqStartReg = true → x.engine.recv.recvStateReg = .idle ∧
    x.engine.req.reqStateReg = .start ∧ x.engine.req.txRdReqTlpValidReg = false ∧ g.requested = 0
  idle : x.engine.recv.recvStateReg = .idle → x.engine.req.descTxRdReqStartReg = false →
    g.received = (x.engine.span + 63) / 64
  start : x.engine.recv.recvStateReg = .start → x.engine.req.descTxRdReqStartReg = false ∧
    x.engine.recv.cplTrCycleReg = (x.engine.span + 63) / 64 % 2 ^ 32 ∧
    x.engine.recv.cplOpCycleReg = g.received ∧ g.received < (x.engine.span + 63) / 64

/-- The output FSM knows the length: with a length of zero it leaves `TR_STATE_START` at once. -/
structure OutFlight (s : RdState c) (g : Flow) : Prop where
  start : s.tr.trStateReg = .start → g.emitted < (s.span + 63) / 64 ∧
    if s.req.descTxRdReqLengthReg = 0 then s.req.descTxRdReqStartReg = true ∧ s.tr.outputCycleReg = 0
    else s.tr.outputCycleReg = (s.span + 63) / 64 - g.emitted
  idle : s.tr.trStateReg = .idle → s.req.descTxRdReqLengthReg = 0 ∨ g.emitted = (s.span + 63) / 64
  zero : s.req.descTxRdReqLengthReg = 0 → g.emitted = 0

structure Flight (x : RdTrack c) (g : Flow) : Prop where
  req : ReqFlight x.engine g.requested
  tag : TagFlight x.engine g
  data : DataFlight x g
  recv : RecvFlight x g
  out : OutFlight x.engine g

/-! ### The request FSM -/

section Request

variable {s : RdState c} {i : RdInput c} {requested : ℕ}

lemma span_stays (ht : s.req.take i = false) : (rdStep s i).span = s.span :=
  congrArg reqSpan (lengthReg_stays ht)

lemma ReqFlight.requested_le (h : ReqFlight s requested) : requested ≤ (s.span + 511) / 512 := by
  cases hs : s.req.reqStateReg with
  | idle => exact (h.idle hs).1.le
  | start => exact (h.start hs).1.le

lemma ReqFlight.state_start (h : ReqFlight s requested)
    (hv : s.req.txRdReqTlpValidReg = true ∨ s.tag.opTagFifoWe = true) :
    s.req.reqStateReg = .start := by
  cases hs : s.req.reqStateReg with
  | start => rfl
  | idle =>
    obtain ⟨-, hv', hw', -⟩ := h.idle hs
    simp [hv', hw'] at hv

lemma ReqFlight.span_le (h : ReqFlight s requested) : s.span ≤ 512 * 2 ^ 32 := reqSpan_le h.length_lt

theorem ReqFlight.step (hc : c.Wide512) (ht : s.req.take i = false)
    (hready : s.req.txRdReqTlpValidReg = true → i.txRdReqTlpReady = true)
    (h : ReqFlight s requested) :
    ReqFlight (rdStep s i) (requested + (s.req.accept i).toNat) := by
  have ha := accept_eq_valid hready
  have hle := h.span_le
  have hlen : (rdStep s i).req.descTxRdReqLengthReg < 2 ^ 32 := by
    simpa [rdStep, lengthReg_stays ht] using h.length_lt
  cases hs : s.req.reqStateReg with
  | idle =>
    obtain ⟨hreq, hv, hw, hlow⟩ := h.idle hs
    have hno : i.descTxRdReqStart = false := by simpa [ReqReg.take, hs, hlow] using ht
    rw [hv] at ha
    refine ⟨hlen, fun _ => ?_, ?_, ?_⟩
    · rw [span_stays ht]
      simp [rdStep, reqNext_idle hs ht, tagStep, ha, hw, hreq, hno]
    · simp [rdStep, reqNext_idle hs ht, hs]
    · simp [rdStep, reqNext_idle hs ht]
  | start =>
    obtain ⟨hlt, htr, hop, hwr⟩ := h.start hs
    cases hv : s.req.txRdReqTlpValidReg with
    | true =>
      rw [hv] at ha
      obtain ⟨hw, -, -⟩ := h.valid hv
      simp only [RdState.allocated, hv, Bool.toNat_true] at hwr
      have hstate : (rdStep s i).req.reqStateReg =
          if requested + 1 = (s.span + 511) / 512 then .idle else .start := by
        simp only [rdStep, reqNext_accept hs ha, hop, htr]
        exact if_congr (by omega) rfl rfl
      rw [ha, Bool.toNat_true]
      refine ⟨hlen, fun hi => ?_, fun hi => ?_, ?_⟩
      · rw [hstate] at hi
        rw [span_stays ht]
        split_ifs at hi with hl
        refine ⟨hl, ?_, ?_, ?_⟩
        · simp [rdStep, reqNext_accept hs ha]
        · simp [rdStep, reqNext_accept hs ha, tagStep]
        · simp [rdStep, reqNext_accept hs ha]
      · rw [hstate] at hi
        rw [span_stays ht]
        split_ifs at hi with hl
        refine ⟨by omega, ?_, ?_, ?_⟩
        · simp [rdStep, reqNext_accept hs ha, htr]
        · simp only [rdStep, reqNext_accept hs ha, hop]
          omega
        · simp [rdStep, reqNext_accept hs ha, tagStep, RdState.allocated, hs, hw, hwr]
      · simp [rdStep, reqNext_accept hs ha]
    | false =>
      rw [hv] at ha
      simp only [RdState.allocated, hv, Bool.toNat_false, Nat.add_zero] at hwr
      rw [ha, Bool.toNat_false, Nat.add_zero]
      cases hw : s.tag.opTagFifoWe with
      | true =>
        refine ⟨hlen, ?_, fun _ => ?_, fun _ => ⟨?_, ?_, ?_⟩⟩
        · simp [rdStep, hw, reqNext_allocate hs ha, hs]
        · rw [span_stays ht]
          refine ⟨hlt, ?_, ?_, ?_⟩
          · simp [rdStep, hw, reqNext_allocate hs ha, htr]
          · simp [rdStep, hw, reqNext_allocate hs ha, hop]
          · simp [rdStep, hw, reqNext_allocate hs ha, tagStep, RdState.allocated, hs, hwr]
        · simp [rdStep, hw, tagStep]
        · simp [rdStep, hw, reqNext_allocate hs ha, mrdHdr, hwr]
        · rw [span_stays ht]
          simp only [rdStep, hw, reqNext_allocate hs ha]
          rw [dataBeats_mrdHdr hc]
          exact byteCycleNext_span hc h.length_lt hlt htr hop
      | false =>
        refine ⟨hlen, ?_, fun _ => ?_, ?_⟩
        · simp [rdStep, hw, reqNext_wait hs ha, hs]
        · rw [span_stays ht]
          refine ⟨hlt, ?_, ?_, ?_⟩
          · simp [rdStep, hw, reqNext_wait hs ha, htr]
          · simp [rdStep, hw, reqNext_wait hs ha, hop]
          · simp [rdStep, hw, reqNext_wait hs ha, tagStep, RdState.allocated, hs, hwr]
        · simp [rdStep, hw, reqNext_wait hs ha]

lemma ReqFlight.allocated_next (ht : s.req.take i = false)
    (hready : s.req.txRdReqTlpValidReg = true → i.txRdReqTlpReady = true)
    (h : ReqFlight s requested) :
    (rdStep s i).allocated (requested + (s.req.accept i).toNat) =
      s.allocated requested + s.tag.opTagFifoWe.toNat :=
  allocated_step ht hready (fun hs => ⟨(h.idle hs).2.1, (h.idle hs).2.2.1⟩) fun hv => (h.valid hv).1

lemma ReqFlight.not_valid_of_we (h : ReqFlight s requested)
    (hw : s.tag.opTagFifoWe = true) : s.req.txRdReqTlpValidReg = false := by
  by_contra hv
  rw [(h.valid (by simpa using hv)).1] at hw
  exact Bool.false_ne_true hw

lemma ReqFlight.byteCycle_next (hc : c.Wide512) (h : ReqFlight s requested)
    (hw : s.tag.opTagFifoWe = true) :
    (rdStep s i).req.byteCycleReg = endBeat s.span requested - 8 * requested := by
  have hs := h.state_start (.inr hw)
  have hv := h.not_valid_of_we hw
  have ha : s.req.accept i = false := by simp [ReqReg.accept, hv]
  obtain ⟨hlt, htr, hop, -⟩ := h.start hs
  simp only [rdStep, hw, reqNext_allocate hs ha]
  exact byteCycleNext_span hc h.length_lt hlt htr hop

end Request

/-! ### The request at the read pointer -/

section Current

variable {x : RdTrack c} {i : RdInput c} {g : Flow}

lemma Flight.span_pos (x : RdTrack c) : 0 < x.engine.span := reqSpan_pos _

lemma Flight.allocated_le (h : Flight x g) :
    x.engine.allocated g.requested ≤ g.popped + 2 ^ c.pcieTagWidth := by
  have hf := h.tag.fifo
  have hb := x.engine.tag.opTagFifo.length_le
  omega

lemma Flight.popped_zero (h : Flight x g) (hz : x.engine.req.descTxRdReqLengthReg = 0) : g.popped = 0 := by
  have hzero := h.out.zero hz
  have hspan := Flight.span_pos x
  cases hrd : x.engine.tag.opTagFifoRd with
  | true =>
    have hend := (h.tag.release hrd).2.1
    unfold endBeat at hend
    omega
  | false =>
    rcases Nat.lt_or_ge g.popped ((x.engine.span + 511) / 512) with hlt | hge
    · have := (h.tag.current hrd hlt).1
      omega
    · have hle := h.tag.popped_le.trans h.req.requested_le
      have := h.tag.finished hrd (by omega)
      omega

lemma Flight.emitting (h : Flight x g) {k : ℕ} (hk : g.popped ≤ k)
    (hkm : k < g.popped + 2 ^ c.pcieTagWidth) (hpos : 0 < x.unpopped (k % 2 ^ c.pcieTagWidth)) :
    k < g.requested ∧ g.emitted < endBeat x.engine.span k := by
  have hslot := h.data.slot k hk hkm
  rw [hslot] at hpos
  split_ifs at hpos with hlt
  · exact ⟨hlt, by omega⟩
  · omega

lemma Flight.words_unpopped (h : Flight x g) {k : ℕ} (hne : x.engine.arrivedWords (k % 2 ^ c.pcieTagWidth) ≠ []) :
    0 < x.unpopped (k % 2 ^ c.pcieTagWidth) := by
  have hheld := h.data.held _ (Nat.mod_lt k (tagCount_pos c))
  have hpos := List.length_pos_iff.mpr hne
  omega

lemma lt_add_tagCount (c : RdConfig) (p : ℕ) : p < p + 2 ^ c.pcieTagWidth := by
  have := tagCount_pos c
  omega

lemma Flight.pops_rdptr (h : Flight x g) {tag : ℕ} (hp : x.engine.pops tag = true) :
    tag = g.popped % 2 ^ c.pcieTagWidth := by
  simp only [RdState.pops, Bool.and_eq_true] at hp
  exact (h.tag.rdEn tag hp.1).1

lemma Flight.of_pops (h : Flight x g) (hp : x.engine.pops (g.popped % 2 ^ c.pcieTagWidth) = true) :
    g.popped < g.requested ∧ g.emitted < endBeat x.engine.span g.popped := by
  simp only [RdState.pops, Bool.and_eq_true, Bool.not_eq_true', List.isEmpty_eq_false_iff] at hp
  have hne : x.engine.arrivedWords (g.popped % 2 ^ c.pcieTagWidth) ≠ [] := fun hnil =>
    hp.2 (List.append_eq_nil_iff.mp hnil).1
  have hpos := h.words_unpopped hne
  exact h.emitting le_rfl (lt_add_tagCount c _) hpos

lemma Flight.emit_eq (h : Flight x g) :
    x.engine.emit = x.engine.pops (g.popped % 2 ^ c.pcieTagWidth) := by
  cases htr : x.engine.tr.trStateReg with
  | start => simp [RdState.emit, RdState.pops, h.tag.rdptr, htr]
  | idle =>
    have hno : x.engine.pops (g.popped % 2 ^ c.pcieTagWidth) = false := by
      by_contra hp
      have hp' : x.engine.pops (g.popped % 2 ^ c.pcieTagWidth) = true := by simpa using hp
      have hend := (h.of_pops hp').2
      rw [RdState.pops, Bool.and_eq_true] at hp'
      have hall := (h.out.idle htr).resolve_left (h.tag.rdEn _ hp'.1).2.2
      unfold endBeat at hend
      omega
    rw [hno]
    simp [RdState.emit, htr]

lemma Flight.of_emit (h : Flight x g) (he : x.engine.emit = true) :
    g.popped < g.requested ∧ g.emitted < endBeat x.engine.span g.popped ∧
      x.engine.tag.opTagFifoRd = false := by
  rw [h.emit_eq] at he
  obtain ⟨hlt, hem⟩ := h.of_pops he
  refine ⟨hlt, hem, ?_⟩
  by_contra hrd
  have := (h.tag.release (by simpa using hrd)).2.1
  omega

lemma Flight.not_emit_of_release (h : Flight x g) (hrd : x.engine.tag.opTagFifoRd = true) :
    x.engine.emit = false := by
  by_contra he
  have hno := (h.of_emit (by simpa using he)).2.2
  rw [hrd] at hno
  cases hno

/-- The beats of the current request that have been emitted, after this cycle. -/
lemma Flight.cycleNext (h : Flight x g) (hrd : x.engine.tag.opTagFifoRd = false)
    (hlt : g.popped < (x.engine.span + 511) / 512) :
    x.engine.cycleNext = g.emitted + x.engine.emit.toNat - 8 * g.popped := by
  obtain ⟨hge, hend, hcyc⟩ := h.tag.current hrd hlt
  have hb := endBeat_le x.engine.span g.popped
  have hall := endBeat_le_all x.engine.span g.popped
  unfold RdState.cycleNext
  cases htr : x.engine.tr.trStateReg with
  | idle =>
    have he : x.engine.emit = false := by simp [RdState.emit, htr]
    have hz := (h.out.idle htr).resolve_right (by omega)
    have := h.out.zero hz
    rw [he, Bool.toNat_false]
    dsimp only
    omega
  | start =>
    dsimp only
    cases he : x.engine.emit with
    | false => simp [hcyc]
    | true =>
      rw [if_pos rfl, hcyc, Bool.toNat_true]
      omega

lemma Flight.table_current (h : Flight x g) :
    x.engine.tag.tagTableInfo (g.popped % 2 ^ c.pcieTagWidth) =
      if g.popped < x.engine.allocated g.requested then endBeat x.engine.span g.popped - 8 * g.popped
      else 0 :=
  h.tag.table g.popped le_rfl (lt_add_tagCount c _)

/-- The release pulse of the tag allocator follows the last beat of a request. -/
lemma Flight.release_next (h : Flight x g) (ht : x.engine.req.take i = false) :
    (rdStep x.engine i).tag.opTagFifoRd = true ↔
      x.engine.emit = true ∧ g.emitted + 1 = endBeat x.engine.span g.popped := by
  have hle : g.requested ≤ x.engine.allocated g.requested := Nat.le_add_right _ _
  rw [opTagFifoRd_step ht, h.tag.rdptr, h.table_current]
  simp only [Bool.and_eq_true, Bool.not_eq_true', decide_eq_true_eq]
  constructor
  · rintro ⟨hrd, hen, hcyc⟩
    obtain ⟨-, hlt, -⟩ := h.tag.rdEn _ hen
    have hN := Nat.lt_of_lt_of_le hlt h.req.requested_le
    obtain ⟨hge, hend, -⟩ := h.tag.current hrd hN
    rw [h.cycleNext hrd hN, if_pos (by omega)] at hcyc
    cases he : x.engine.emit with
    | false =>
      rw [he, Bool.toNat_false] at hcyc
      omega
    | true =>
      rw [he, Bool.toNat_true] at hcyc
      exact ⟨rfl, by omega⟩
  · rintro ⟨he, hend⟩
    obtain ⟨hlt, -, hrd⟩ := h.of_emit he
    have hN := Nat.lt_of_lt_of_le hlt h.req.requested_le
    refine ⟨hrd, ?_, ?_⟩
    · rw [h.emit_eq, RdState.pops, Bool.and_eq_true] at he
      exact he.1
    · rw [h.cycleNext hrd hN, if_pos (by omega), he, Bool.toNat_true]
      omega

lemma Flight.cycleReg_next (h : Flight x g) : (rdStep x.engine i).tr.cycleReg =
    if x.engine.cycleNext = x.engine.tag.tagTableInfo (g.popped % 2 ^ c.pcieTagWidth) then 0
    else x.engine.cycleNext := by
  simp only [rdStep, trStep, h.tag.rdptr]

end Current

end FpgaPcie
