import FpgaPcie.Rtl.DmaRdFlight
import FpgaPcie.Rtl.DmaRdReassembly

/-!
# The tag window

The tags in use are those from `op_tag_fifo_rdptr` up to `op_tag_fifo_wr_tag`; `op_tag_fifo` counts them,
and `tag_table_info` has a beat count for each. A start sets both pointers to zero, whatever
`op_tag_fifo` still counts.
-/

namespace FpgaPcie

variable {c : RdConfig}

/-- The tags in use form a window. The tag of a pending `op_tag_fifo_rd` is still in it, the tag of a
pending `op_tag_fifo_we` not yet. -/
structure TagWindow (x : RdTrack c) : Prop where
  occupancy : x.engine.tag.opTagFifo.words.length ≤ 2 ^ c.pcieTagWidth
  wrTag : x.engine.tag.opTagFifoWrTag =
    (x.engine.tag.opTagFifoRdptr + x.engine.tag.opTagFifo.words.length) % 2 ^ c.pcieTagWidth
  outstanding : ∀ tag, tag < 2 ^ c.pcieTagWidth → (x.Outstanding tag ↔
    x.InWindow tag ∧ ¬(x.engine.tag.opTagFifoRd = true ∧ tag = x.engine.tag.opTagFifoRdptr))
  table : ∀ tag, tag < 2 ^ c.pcieTagWidth → (0 < x.engine.tag.tagTableInfo tag ↔ x.InWindow tag)
  allocating : x.engine.tag.opTagFifoWe = true → ¬x.InWindow x.engine.tag.opTagFifoWrTag
  /-- A tag that is issued has had all beats of its previous use popped. -/
  issued : x.engine.req.txRdReqTlpValidReg = true →
    x.unpopped x.engine.req.txRdReqTlpHdrReg.tag = 0

/-! ### The window of a descriptor in flight -/

section Window

variable {x : RdTrack c} {g : Flow}

lemma Flight.popped_le_allocated (h : Flight x g) : g.popped ≤ x.engine.allocated g.requested :=
  h.tag.popped_le.trans (Nat.le_add_right _ _)

lemma Flight.inWindow_iff (h : Flight x g) {k : ℕ} (hk : g.popped ≤ k)
    (hkm : k < g.popped + 2 ^ c.pcieTagWidth) :
    x.InWindow (k % 2 ^ c.pcieTagWidth) ↔ k < x.engine.allocated g.requested := by
  have hle := h.popped_le_allocated
  have hall := h.allocated_le
  rw [RdTrack.InWindow, h.tag.rdptr, h.tag.fifo, RingBuffer.inWindow_iff]
  constructor
  · intro ⟨l, hl, hlm, heq⟩
    obtain rfl := owner_unique ⟨hk, hkm⟩ ⟨hl, by omega⟩ heq
    omega
  · intro hlt
    exact ⟨k, hk, by omega, rfl⟩

/-- The beats emitted are those of the requests before the read pointer and some of the next one. -/
lemma Flight.emitted_bounds (h : Flight x g) (hlt : g.popped < (x.engine.span + 511) / 512) :
    g.emitted ≤ 8 * g.popped + 8 ∧
      (g.emitted < endBeat x.engine.span g.popped ↔ x.engine.tag.opTagFifoRd = false) := by
  have hb := endBeat_le x.engine.span g.popped
  cases hrd : x.engine.tag.opTagFifoRd with
  | true =>
    have hend := (h.tag.release hrd).2.1
    exact ⟨by omega, fun hcon => by omega, nofun⟩
  | false =>
    have hend := (h.tag.current hrd hlt).2.1
    exact ⟨by omega, fun _ => rfl, fun _ => hend⟩

/-- A request that has been accepted has beats left, unless its tag is about to be released. -/
lemma Flight.unpopped_pos (h : Flight x g) {k : ℕ} (hk : g.popped ≤ k)
    (hkm : k < g.popped + 2 ^ c.pcieTagWidth) : 0 < x.unpopped (k % 2 ^ c.pcieTagWidth) ↔
      k < g.requested ∧ ¬(x.engine.tag.opTagFifoRd = true ∧ k = g.popped) := by
  rw [h.data.slot k hk hkm]
  have hN := h.req.requested_le
  by_cases hlt : k < g.requested
  · obtain ⟨hle, hend⟩ := h.emitted_bounds (by omega)
    rw [if_pos hlt]
    simp only [hlt, true_and]
    have hk8 : 8 * k < endBeat x.engine.span k := lt_endBeat (by omega)
    by_cases hkp : k = g.popped
    · subst hkp
      simp only [and_true, Bool.not_eq_true, ← hend]
      omega
    · simp only [hkp, and_false, not_false_eq_true, iff_true]
      omega
  · rw [if_neg hlt]
    simp [hlt]

theorem Flight.tagWindow (h : Flight x g) (hs : x.engine.req.reqStateReg = .start) : TagWindow x := by
  obtain ⟨hN, -, -, hwr⟩ := h.req.start hs
  have hle := h.popped_le_allocated
  have hallocated : x.engine.allocated g.requested = g.requested + x.engine.req.txRdReqTlpValidReg.toNat :=
    rfl
  have hone := Bool.toNat_le x.engine.req.txRdReqTlpValidReg
  refine ⟨x.engine.tag.opTagFifo.length_le, ?_, fun tag htag => ?_, fun tag htag => ?_, fun hw => ?_,
    fun hv => ?_⟩
  · rw [hwr, h.tag.rdptr, h.tag.fifo, Nat.mod_add_mod, Nat.add_sub_cancel' hle]
  · obtain ⟨k, hk, hkm, rfl⟩ := exists_slot c g.popped htag
    have hrdptr : k % 2 ^ c.pcieTagWidth = x.engine.tag.opTagFifoRdptr ↔ k = g.popped := by
      rw [h.tag.rdptr]
      exact ⟨owner_unique ⟨hk, hkm⟩ ⟨le_rfl, lt_add_tagCount c _⟩, fun heq => by rw [heq]⟩
    rw [RdTrack.Outstanding, h.inWindow_iff hk hkm, h.unpopped_pos hk hkm, hrdptr]
    cases hv : x.engine.req.txRdReqTlpValidReg with
    | false =>
      rw [hv, Bool.toNat_false] at hallocated
      simp [hallocated]
    | true =>
      rw [hv, Bool.toNat_true] at hallocated
      have hoffered : x.engine.req.txRdReqTlpHdrReg.tag = k % 2 ^ c.pcieTagWidth ↔ k = g.requested := by
        rw [(h.req.valid hv).2.1, eq_comm]
        exact ⟨owner_unique ⟨hk, hkm⟩ ⟨h.tag.popped_le, h.requested_lt hv⟩, fun heq => by rw [heq]⟩
      rw [hoffered, hallocated]
      have hrel : x.engine.tag.opTagFifoRd = true → g.popped < g.requested := fun hrd => (h.tag.release hrd).1
      constructor
      · rintro (⟨-, rfl⟩ | ⟨hlt, hno⟩)
        · exact ⟨by omega, fun hcon => absurd (hrel hcon.1) (by omega)⟩
        · exact ⟨by omega, hno⟩
      · intro ⟨hlt, hno⟩
        rcases Nat.lt_or_ge k g.requested with hlt' | hge
        · exact .inr ⟨hlt', hno⟩
        · exact .inl ⟨rfl, by omega⟩
  · obtain ⟨k, hk, hkm, rfl⟩ := exists_slot c g.popped htag
    rw [h.tag.table k hk hkm, h.inWindow_iff hk hkm]
    split_ifs with hlt
    · have hk8 : 8 * k < endBeat x.engine.span k := lt_endBeat (by omega)
      simp only [hlt, iff_true]
      omega
    · simp [hlt]
  · have hroom := h.tag.room hw
    rw [hwr, h.inWindow_iff hle hroom]
    exact lt_irrefl _
  · rw [(h.req.valid hv).2.1, h.data.slot _ h.tag.popped_le (h.requested_lt hv), if_neg (lt_irrefl _)]

end Window

/-! ### Between two descriptors -/

/-- The engine without a descriptor; its output FIFO may still hold beats. -/
structure Unused (x : RdTrack c) : Prop where
  req : x.engine.req.reqStateReg = .idle
  startReg : x.engine.req.descTxRdReqStartReg = false
  valid : x.engine.req.txRdReqTlpValidReg = false
  we : x.engine.tag.opTagFifoWe = false
  rd : x.engine.tag.opTagFifoRd = false
  tagFifo : x.engine.tag.opTagFifo.words = []
  table : ∀ tag, tag < 2 ^ c.pcieTagWidth → x.engine.tag.tagTableInfo tag = 0
  rdEn : ∀ tag, x.engine.tr.cpldDataFifoRdEnReg tag = false
  recv : x.engine.recv.recvStateReg = .idle
  tr : x.engine.tr.trStateReg = .idle
  words : ∀ tag, tag < 2 ^ c.pcieTagWidth → x.engine.arrivedWords tag = []
  owed : x.owed = []
  unpopped : ∀ tag, tag < 2 ^ c.pcieTagWidth → x.unpopped tag = 0

lemma unused_reset (i : ℕ → RdInput c) : Unused (RdTrack.run i 0) :=
  ⟨rfl, rfl, rfl, rfl, rfl, rfl, fun _ _ => rfl, fun _ => rfl, rfl, rfl, fun _ _ => rfl, rfl, fun _ _ => rfl⟩

lemma Flight.unused {x : RdTrack c} {g : Flow} (h : Flight x g) (hfree : x.TagsFree)
    (hs : x.engine.req.reqStateReg = .idle) : Unused x := by
  obtain ⟨hfifo, hrd⟩ := hfree
  obtain ⟨hreq, hv, hw, hstart⟩ := h.req.idle hs
  have hle := h.popped_le_allocated
  have hcount := h.tag.fifo
  have hpop : g.popped = g.requested := by
    have := h.tag.popped_le
    rw [hfifo, List.length_nil] at hcount
    unfold RdState.allocated at hcount hle
    omega
  have halloc : x.engine.allocated g.requested = g.popped := by simp [RdState.allocated, hv, hpop]
  have hemitted := h.tag.finished hrd (hpop.trans hreq)
  have hunpopped : ∀ tag, tag < 2 ^ c.pcieTagWidth → x.unpopped tag = 0 := by
    intro tag htag
    obtain ⟨k, hk, hkm, rfl⟩ := exists_slot c g.popped htag
    rw [h.data.slot k hk hkm, if_neg (by omega)]
  have hheld := fun tag htag => h.data.held tag htag
  have howed : x.owed = [] := by
    rw [List.eq_nil_iff_forall_not_mem]
    intro tag hmem
    have hpos := List.count_pos_iff.mpr hmem
    have hlt := h.data.owed_lt tag hmem
    have := hheld tag hlt
    have := hunpopped tag hlt
    omega
  have hz : x.engine.req.descTxRdReqLengthReg ≠ 0 := by
    intro hz
    have hzero := h.out.zero hz
    have := Flight.span_pos x
    omega
  refine ⟨hs, hstart, hv, hw, hrd, hfifo, fun tag htag => ?_, fun tag => ?_, ?_, ?_, fun tag htag => ?_,
    howed, hunpopped⟩
  · obtain ⟨k, hk, hkm, rfl⟩ := exists_slot c g.popped htag
    rw [h.tag.table k hk hkm, if_neg (by omega)]
  · by_contra hen
    have := (h.tag.rdEn tag (by simpa using hen)).2.1
    omega
  · cases hr : x.engine.recv.recvStateReg with
    | idle => rfl
    | start =>
      have hlt := (h.recv.start hr).2.2.2
      have htot := h.recv.total
      rw [howed, List.length_nil] at htot
      omega
  · cases htr : x.engine.tr.trStateReg with
    | idle => rfl
    | start =>
      have := (h.out.start htr).1
      omega
  · have := hheld tag htag
    have := hunpopped tag htag
    exact List.length_eq_zero_iff.mp (by omega)

section Unused

variable {x : RdTrack c} {i : RdInput c}

lemma Unused.not_accept (hlegal : x.Legal i) (h : Unused x) : x.engine.cplAccept i = false := by
  by_contra ha
  have hmem := Legal.tag_mem hlegal (by simpa using ha)
  rw [h.owed] at hmem
  cases hmem

lemma Unused.still (hlegal : x.Legal i) (h : Unused x) : (x.step i).owed = [] ∧
    ∀ tag, tag < 2 ^ c.pcieTagWidth →
      (x.step i).unpopped tag = 0 ∧ (x.step i).engine.arrivedWords tag = [] := by
  have hna := h.not_accept hlegal
  have hacc : x.engine.req.accept i = false := by simp [ReqReg.accept, h.valid]
  refine ⟨?_, fun tag htag => ⟨?_, ?_⟩⟩
  · simp [RdTrack.step, RdTrack.owedNext, hna, hacc, h.owed]
  · simp [RdTrack.step, RdTrack.unpoppedNext, hacc, h.unpopped tag htag]
  · have hwords := arrivedWords_length_step x.engine i tag (by rw [h.words tag htag]; exact Nat.zero_le _)
    have hst : x.engine.stores i tag = false := by simp [RdState.stores, hna]
    rw [h.words tag htag, hst, List.length_nil, Bool.toNat_false] at hwords
    exact List.length_eq_zero_iff.mp (by simp only [RdTrack.step]; omega)

lemma Unused.step (ht : x.engine.req.take i = false) (hlegal : x.Legal i) (h : Unused x) :
    Unused (x.step i) := by
  obtain ⟨howed, hstill⟩ := h.still hlegal
  have hno : (i.descTxRdReqStart && !x.engine.req.descTxRdReqStartReg) = false := by
    simpa [ReqReg.take, h.req] using ht
  refine ⟨?_, ?_, ?_, ?_, ?_, ?_, fun tag htag => ?_, fun tag => ?_, ?_, ?_, fun tag htag => (hstill tag htag).2,
    howed, fun tag htag => (hstill tag htag).1⟩
  · simp [RdTrack.step, rdStep, reqNext_idle h.req ht, h.req]
  · simpa [RdTrack.step, rdStep, reqNext_idle h.req ht, h.startReg] using hno
  · simp [RdTrack.step, rdStep, reqNext_idle h.req ht]
  · simp [RdTrack.step, rdStep, tagStep, reqNext_idle h.req ht, h.we]
  · simp only [RdTrack.step]
    rw [opTagFifoRd_step ht, h.rdEn]
    simp
  · simp [RdTrack.step, rdStep, tagStep, h.we, h.rd, h.tagFifo]
  · simp [RdTrack.step, rdStep, tagStep, h.we, h.rd, h.table tag htag]
  · simp [RdTrack.step, rdStep, trStep, rdEnNext, h.tr]
  · simp [RdTrack.step, rdStep, recvStep, recvStart, h.recv, h.startReg]
  · simp [RdTrack.step, rdStep, trStep, trStateNext, h.tr, hno]

lemma Unused.launch (hc : c.Wide512) (ht : x.engine.req.take i = true)
    (hlen : i.descTxRdReqLength < 2 ^ 32) (hlegal : x.Legal i) (h : Unused x) :
    Flight (x.step i) ⟨0, 0, 0, 0⟩ := by
  obtain ⟨howed, hstill⟩ := h.still hlegal
  have hedge : (i.descTxRdReqStart && !x.engine.req.descTxRdReqStartReg) = true := by
    simpa [ReqReg.take, h.req] using ht
  have hlength : (x.step i).engine.req.descTxRdReqLengthReg = i.descTxRdReqLength := by
    simp [RdTrack.step, rdStep, reqNext_take ht]
  have hstart : (x.step i).engine.req.reqStateReg = .start := by
    simp [RdTrack.step, rdStep, reqNext_take ht]
  have hvalid : (x.step i).engine.req.txRdReqTlpValidReg = false := by
    simp [RdTrack.step, rdStep, reqNext_take ht]
  have hstartReg : (x.step i).engine.req.descTxRdReqStartReg = true := by
    simp [RdTrack.step, rdStep, reqNext_take ht]
  have hspan : (x.step i).engine.span = reqSpan i.descTxRdReqLength := by rw [RdState.span, hlength]
  have hpos := reqSpan_pos i.descTxRdReqLength
  have hrd : (x.step i).engine.tag.opTagFifoRd = false := by
    simp [RdTrack.step, rdStep, tagStep, reqNext_take ht, h.req, h.rd]
  have hen : ∀ tag, (x.step i).engine.tr.cpldDataFifoRdEnReg tag = false := by
    intro tag
    simp [RdTrack.step, rdStep, trStep, rdEnNext, h.tr]
  have htr : (x.step i).engine.tr.trStateReg = .start := by
    simp [RdTrack.step, rdStep, trStep, trStateNext, h.tr, hedge]
  have hrecv : (x.step i).engine.recv.recvStateReg = .idle := by
    simp [RdTrack.step, rdStep, recvStep, recvStart, h.recv, h.startReg]
  have hcycle : (x.step i).engine.tr.cycleReg = 0 := by
    simp [RdTrack.step, rdStep, trStep, RdState.cycleNext, h.tr]
  have halloc : (x.step i).engine.allocated 0 = 0 := by simp [RdState.allocated, hvalid]
  have hM := tagCount_pos c
  constructor
  · refine ⟨by rw [hlength]; exact hlen, fun hs => ?_, fun _ => ?_, fun hv => ?_⟩
    · rw [hstart] at hs
      cases hs
    · rw [hspan, halloc, ← trCycleNext_span hc hlen]
      refine ⟨by show 0 < _; omega, ?_, ?_, ?_⟩
      · simp [RdTrack.step, rdStep, reqNext_take ht]
      · simp [RdTrack.step, rdStep, reqNext_take ht]
      · simp [RdTrack.step, rdStep, tagStep, h.req]
    · rw [hvalid] at hv
      cases hv
  · refine ⟨le_rfl, ?_, fun hw => ?_, ?_, fun k _ hk => ?_, fun tag ht => ?_, fun hr => ?_,
      fun _ _ => ⟨Nat.zero_le _, ?_, hcycle⟩, fun _ hz => ?_⟩
    · rw [halloc]
      simp [RdTrack.step, rdStep, tagStep, h.we, h.rd, h.tagFifo]
    · simp [RdTrack.step, rdStep, tagStep, reqNext_take ht, h.we] at hw
    · simp [RdTrack.step, rdStep, tagStep, reqNext_take ht, h.req]
    · rw [halloc, if_neg (Nat.not_lt_zero k)]
      have htable := h.table (k % 2 ^ c.pcieTagWidth) (Nat.mod_lt k hM)
      simp [RdTrack.step, rdStep, tagStep, h.we, h.rd, htable]
    · rw [hen] at ht
      cases ht
    · rw [hrd] at hr
      cases hr
    · rw [hspan]
      exact lt_endBeat (k := 0) (by omega)
    · rw [hspan] at hz
      dsimp only at hz
      omega
  · refine ⟨le_rfl, fun k _ hk => ?_, fun tag htag => ?_, fun tag hmem => ?_⟩
    · rw [(hstill _ (Nat.mod_lt k hM)).1, if_neg (Nat.not_lt_zero k)]
    · rw [howed, (hstill tag htag).1, (hstill tag htag).2]
      rfl
    · rw [howed] at hmem
      cases hmem
  · refine ⟨by rw [howed]; simp, fun _ => ⟨hrecv, hstart, hvalid, rfl⟩, fun _ hlow => ?_, fun hr => ?_⟩
    · rw [hstartReg] at hlow
      cases hlow
    · rw [hrecv] at hr
      cases hr
  · have hbeats : 0 < (reqSpan i.descTxRdReqLength + 63) / 64 := by omega
    refine ⟨fun _ => ⟨by rwa [hspan], ?_⟩, fun hi => ?_, fun _ => rfl⟩
    · have hreg : (x.step i).engine.tr.outputCycleReg = beatCycles c i.descTxRdReqLength := by
        simp only [RdTrack.step, rdStep, trStep, reqNext_take ht, RdState.outputCycleNext, h.tr, hedge]
        rfl
      rw [hlength, hreg, hspan, beatCycles_span hc hlen]
      by_cases hz : i.descTxRdReqLength = 0
      · rw [if_pos hz, hz]
        exact ⟨hstartReg, rfl⟩
      · rw [if_neg hz, reqSpan, if_neg hz]
        dsimp only
        omega
    · rw [htr] at hi
      cases hi

end Unused

/-! ### Runs -/

/-- The starts in this cycle: the request FSM takes a descriptor only when no tag is in use, and an output
FSM that waits behind a descriptor without a length is not started. -/
structure RdTrack.StartsOk (x : RdTrack c) (i : RdInput c) : Prop where
  free : x.engine.req.take i = true → x.TagsFree
  low : x.engine.req.reqStateReg = .start → x.engine.req.descTxRdReqLengthReg = 0 →
    x.engine.tr.trStateReg = .idle → i.descTxRdReqStart = false

theorem unused_or_flight (hc : c.Wide512) (i : ℕ → RdInput c) (hlen : ∀ t, (i t).descTxRdReqLength < 2 ^ 32)
    (hlegal : ∀ t, (RdTrack.run i t).Legal (i t)) (hstarts : ∀ t, (RdTrack.run i t).StartsOk (i t)) (t : ℕ) :
    Unused (RdTrack.run i t) ∨ ∃ g, Flight (RdTrack.run i t) g := by
  induction t with
  | zero => exact .inl (unused_reset i)
  | succ t ih =>
    cases ht : (RdTrack.run i t).engine.req.take (i t) with
    | false =>
      rcases ih with h | ⟨g, h⟩
      · exact .inl (h.step ht (hlegal t))
      · exact .inr ⟨_, h.step hc ht (hlegal t) (hstarts t).low⟩
    | true =>
      have hfree := (hstarts t).free ht
      have hs := (take_iff.mp ht).1
      have hunused : Unused (RdTrack.run i t) := by
        rcases ih with h | ⟨g, h⟩
        · exact h
        · exact h.unused hfree hs
      exact .inr ⟨_, hunused.launch hc ht (hlen t) (hlegal t)⟩

/-- When every start finds the tags free, the tags in use form a window as long as the request FSM works
on a descriptor. -/
theorem tag_window_of_starts (hc : c.Wide512) (i : ℕ → RdInput c)
    (hlen : ∀ t, (i t).descTxRdReqLength < 2 ^ 32) (hlegal : ∀ t, (RdTrack.run i t).Legal (i t))
    (hstarts : ∀ t, (RdTrack.run i t).StartsOk (i t)) (t : ℕ)
    (hs : (RdTrack.run i t).engine.req.reqStateReg = .start) : TagWindow (RdTrack.run i t) := by
  rcases unused_or_flight hc i hlen hlegal hstarts t with h | ⟨g, h⟩
  · rw [h.req] at hs
    cases hs
  · exact h.tagWindow hs

/-- A descriptor of 64 bytes, and a second one started in the cycle of `tx_rd_req_irq`. -/
def startsWithIrq (t : ℕ) : RdInput ⟨6, 5, 0, 2, tagWidth_five, payloadSize_two⟩ where
  descTxRdReqStart := t == 0 || t == 7
  descTxRdReqLength := 64
  descTxRdReqAddress := 4096
  txRdReqTlpReady := true
  rxCplTlpValid := t == 6
  rxCplTlpHdr := cplHdrOfTag 0
  rxCplTlpData := fun _ => 0
  mAxisTlpTready := true

lemma startsWithIrq_legal (t : ℕ) : (RdTrack.run startsWithIrq t).Legal (startsWithIrq t) where
  ready _ := rfl
  answers h := by
    have ht : t = 6 := by simpa [startsWithIrq] using h
    subst ht
    decide +kernel

/-- The second start sets both pointers to zero while `op_tag_fifo` still counts tag 0. -/
theorem window_lost : (∀ t, (RdTrack.run startsWithIrq t).Legal (startsWithIrq t)) ∧
    ¬∀ t, (RdTrack.run startsWithIrq t).engine.req.reqStateReg = .start →
      TagWindow (RdTrack.run startsWithIrq t) := by
  refine ⟨startsWithIrq_legal, fun h => ?_⟩
  have hwr := (h 8 (by decide +kernel)).wrTag
  revert hwr
  decide +kernel

/-- Four tags. A descriptor of 3000 bytes asks with six MRds, so that two tags are used again, and the one
behind it starts when the last tag is free. The completions come in the order of the tags 1, 0, 2, 3, 1, 0. -/
def startsTwice (t : ℕ) : RdInput ⟨6, 2, 0, 2, by decide, by decide⟩ where
  descTxRdReqStart := t == 0 || t == 85
  descTxRdReqLength := if t < 85 then 3000 else 600
  descTxRdReqAddress := 4096
  txRdReqTlpReady := true
  rxCplTlpValid := decide (9 ≤ t ∧ t < 41) || decide (42 ≤ t ∧ t < 57)
  rxCplTlpHdr := cplHdrOfTag (if t < 17 then 1 else if t < 25 then 0 else if t < 33 then 2 else
    if t < 41 then 3 else if t < 49 then 1 else 0)
  rxCplTlpData := fun _ => 0
  mAxisTlpTready := t % 4 != 0

lemma startsTwice_legal (t : ℕ) : (RdTrack.run startsTwice t).Legal (startsTwice t) where
  ready _ := rfl
  answers h := by
    have ht : t < 57 := by
      simp only [startsTwice, Bool.or_eq_true, decide_eq_true_eq] at h
      omega
    have hall : ∀ t < 57, (startsTwice t).rxCplTlpValid = true →
        rxCplTlpHdrTag (startsTwice t).rxCplTlpHdr ∈ (RdTrack.run startsTwice t).owed := by decide +kernel
    exact hall t ht h

lemma startsTwice_startsOk (t : ℕ) : (RdTrack.run startsTwice t).StartsOk (startsTwice t) := by
  by_cases ht : t = 0 ∨ t = 85
  · rcases ht with rfl | rfl
    · exact ⟨fun _ => ⟨rfl, rfl⟩, by decide +kernel⟩
    · exact ⟨fun _ => ⟨List.length_eq_zero_iff.mp (by decide +kernel), by decide +kernel⟩, by decide +kernel⟩
  · have hlow : (startsTwice t).descTxRdReqStart = false := by
      rw [not_or] at ht
      simp [startsTwice, ht.1, ht.2]
    exact ⟨fun h => by simp [(take_iff.mp h).2.1] at hlow, fun _ _ _ => hlow⟩

/-- In cycles 31 and 41 the MRds that use tags 0 and 1 for the second time are on the port and all tags are
in use. In cycle 90 the second descriptor gets its second tag. -/
theorem tag_window_of_starts_twice : TagWindow (RdTrack.run startsTwice 31) ∧
    TagWindow (RdTrack.run startsTwice 41) ∧ TagWindow (RdTrack.run startsTwice 90) := by
  have hlen : ∀ t, (startsTwice t).descTxRdReqLength < 2 ^ 32 := by
    intro t
    change (if t < 85 then 3000 else 600) < 2 ^ 32
    split_ifs <;> norm_num
  have hs : ∀ t ∈ [31, 41, 90], (RdTrack.run startsTwice t).engine.req.reqStateReg = .start := by decide +kernel
  have hwindow : ∀ t ∈ [31, 41, 90], TagWindow (RdTrack.run startsTwice t) := fun t ht =>
    tag_window_of_starts ⟨rfl, rfl⟩ startsTwice hlen startsTwice_legal startsTwice_startsOk t (hs t ht)
  exact ⟨hwindow 31 (by simp), hwindow 41 (by simp), hwindow 90 (by simp)⟩

end FpgaPcie
