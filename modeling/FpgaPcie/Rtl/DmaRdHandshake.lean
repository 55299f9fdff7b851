import FpgaPcie.Rtl.DmaRd

/-!
# The MRd handshake

What one clock edge can do to the request FSM, one equation for each branch, and the
handshake of the request port over whole runs. The valid flag falls back to zero in every
cycle that does not build a header, so a request that is not accepted at once is dropped and
its tag is lost.
-/

namespace FpgaPcie

variable {c : RdConfig}

section Branches

variable {r : ReqReg} {i : RdInput c} {we : Bool} {wrTag : ℕ}

/-- A descriptor is taken. -/
def ReqReg.take (r : ReqReg) (i : RdInput c) : Bool :=
  r.reqStateReg == .idle && (i.descTxRdReqStart && !r.descTxRdReqStartReg)

/-- The request on the port is accepted. -/
def ReqReg.accept (r : ReqReg) (i : RdInput c) : Bool :=
  i.txRdReqTlpReady && r.txRdReqTlpValidReg

lemma take_iff : r.take i = true ↔ r.reqStateReg = .idle ∧ i.descTxRdReqStart = true ∧
    r.descTxRdReqStartReg = false := by
  simp [ReqReg.take]

lemma reqNext_take (h : r.take i = true) : reqNext c r i we wrTag =
    { r with
      reqStateReg := .start
      descTxRdReqAddressReg := i.descTxRdReqAddress
      descTxRdReqLengthReg := i.descTxRdReqLength
      descTxRdReqStartReg := true
      trCycleReg := trCycleNext c i.descTxRdReqLength
      opCycleReg := 0
      byteCycleReg := 0
      tagValidReg := false
      tlpAddressReg := i.descTxRdReqAddress
      txRdReqTlpHdrReg := TlpHdr.zero
      txRdReqTlpValidReg := false } := by
  obtain ⟨hs, ht, hr⟩ := take_iff.mp h
  simp [reqNext, hs, ht, hr]

lemma reqNext_idle (hs : r.reqStateReg = .idle) (h : r.take i = false) : reqNext c r i we wrTag =
    { r with
      descTxRdReqStartReg := i.descTxRdReqStart
      trCycleReg := 0
      opCycleReg := 0
      byteCycleReg := 0
      tagValidReg := false
      txRdReqTlpHdrReg := TlpHdr.zero
      txRdReqTlpValidReg := false } := by
  have ht : (i.descTxRdReqStart && !r.descTxRdReqStartReg) = false := by
    simpa [ReqReg.take, hs] using h
  simp [reqNext, hs, ht]

lemma reqNext_accept (hs : r.reqStateReg = .start) (h : r.accept i = true) :
    reqNext c r i we wrTag =
    { r with
      reqStateReg := if (r.opCycleReg + 1) % 2 ^ 32 = r.trCycleReg then .idle else .start
      descTxRdReqStartReg := false
      opCycleReg := (r.opCycleReg + 1) % 2 ^ 32
      tagValidReg := false
      tlpAddressReg := (r.tlpAddressReg + 128 <<< c.maxReadPayloadSize % 2 ^ 32) % 2 ^ 64
      txRdReqTlpHdrReg := TlpHdr.zero
      txRdReqTlpValidReg := false } := by
  rw [ReqReg.accept] at h
  simp [reqNext, hs, h]

lemma reqNext_allocate (hs : r.reqStateReg = .start) (h : r.accept i = false) :
    reqNext c r i true wrTag =
    { r with
      descTxRdReqStartReg := false
      byteCycleReg := byteCycleNext c r
      tagIdxLengthReg := tagIdxLengthNext c r
      tagValidReg := false
      txRdReqTlpHdrReg := mrdHdr c r wrTag
      txRdReqTlpValidReg := true } := by
  rw [ReqReg.accept] at h
  simp [reqNext, hs, h]

lemma reqNext_wait (hs : r.reqStateReg = .start) (h : r.accept i = false) :
    reqNext c r i false wrTag =
    { r with
      descTxRdReqStartReg := false
      tagValidReg := true
      txRdReqTlpHdrReg := TlpHdr.zero
      txRdReqTlpValidReg := false } := by
  rw [ReqReg.accept] at h
  simp [reqNext, hs, h]

end Branches

/-! ### Tags over a run -/

section Tags

variable (s₀ : RdState c) (i : ℕ → RdInput c)

/-- The tags pushed into `op_tag_fifo` for the current descriptor. -/
def pushedTags : ℕ → List ℕ
  | 0 => []
  | t + 1 =>
    let s := rdRun s₀ i t
    if s.req.take (i t) then []
    else pushedTags t ++ if s.tag.opTagFifoWe then [s.tag.opTagFifoWrTag] else []

/-- The tags of the requests accepted for the current descriptor. -/
def acceptedTags : ℕ → List ℕ
  | 0 => []
  | t + 1 =>
    let s := rdRun s₀ i t
    if s.req.take (i t) then []
    else acceptedTags t ++ if s.req.accept (i t) then [s.req.txRdReqTlpHdrReg.tag] else []

/-- The request on the port, if there is one. -/
def ReqReg.offeredTag (r : ReqReg) : List ℕ :=
  if r.txRdReqTlpValidReg then [r.txRdReqTlpHdrReg.tag] else []

/-- The handshake law of the request port. -/
structure HandshakeHolds : Prop where
  held : ∀ t, (rdRun s₀ i t).req.txRdReqTlpValidReg = true → (i t).txRdReqTlpReady = false →
    (rdRun s₀ i (t + 1)).req.txRdReqTlpValidReg = true ∧
      (rdRun s₀ i (t + 1)).req.txRdReqTlpHdrReg = (rdRun s₀ i t).req.txRdReqTlpHdrReg
  carried : ∀ t, pushedTags s₀ i t = acceptedTags s₀ i t ++ (rdRun s₀ i t).req.offeredTag
  consecutive : ∀ t, acceptedTags s₀ i t =
    (List.range (acceptedTags s₀ i t).length).map (· % 2 ^ c.pcieTagWidth)

end Tags

lemma we_of_valid_next {r : ReqReg} {i : RdInput c} {we : Bool} {wrTag : ℕ}
    (h : (reqNext c r i we wrTag).txRdReqTlpValidReg = true) : we = true := by
  cases hs : r.reqStateReg with
  | idle =>
    cases ht : r.take i with
    | false => simp [reqNext_idle hs ht] at h
    | true => simp [reqNext_take ht] at h
  | start =>
    cases ha : r.accept i with
    | false =>
      cases hw : we with
      | false => simp [hw, reqNext_wait hs ha] at h
      | true => rfl
    | true => simp [reqNext_accept hs ha] at h

lemma not_we_of_valid (i : ℕ → RdInput c) (t : ℕ)
    (h : (rdRun (rdReset c) i t).req.txRdReqTlpValidReg = true) :
    (rdRun (rdReset c) i t).tag.opTagFifoWe = false := by
  cases t with
  | zero => rfl
  | succ t =>
    have hw : (rdRun (rdReset c) i t).tag.opTagFifoWe = true := we_of_valid_next h
    simp [rdRun, rdStep, tagStep, hw]

/-- What links the request FSM, the tag allocator and the tags seen so far. -/
structure TagsInStep (s : RdState c) (pushed accepted : List ℕ) : Prop where
  idle : s.req.reqStateReg = .idle → s.req.txRdReqTlpValidReg = false ∧ s.tag.opTagFifoWe = false
  valid : s.req.txRdReqTlpValidReg = true → s.tag.opTagFifoWe = false
  carried : pushed = accepted ++ s.req.offeredTag
  consecutive : pushed = (List.range pushed.length).map (· % 2 ^ c.pcieTagWidth)
  wrTag : s.req.reqStateReg = .start → s.tag.opTagFifoWrTag = pushed.length % 2 ^ c.pcieTagWidth

lemma consecutive_snoc {l : List ℕ} {m : ℕ} (h : l = (List.range l.length).map (· % m)) :
    l ++ [l.length % m] = (List.range (l ++ [l.length % m]).length).map (· % m) := by
  rw [List.length_append, List.length_singleton, List.range_succ, List.map_append, ← h]
  rfl

lemma consecutive_prefix {l k : List ℕ} {m : ℕ}
    (h : l ++ k = (List.range (l ++ k).length).map (· % m)) :
    l = (List.range l.length).map (· % m) := by
  have hl : l = (l ++ k).take l.length := by rw [List.take_left]
  rw [h, List.length_append, ← List.map_take, List.take_range, Nat.min_eq_left (by omega)] at hl
  exact hl

section Step

variable {s : RdState c} {i : RdInput c} {pushed accepted : List ℕ}

theorem TagsInStep.step_take (ht : s.req.take i = true) (h : TagsInStep s pushed accepted) :
    TagsInStep (rdStep s i) [] [] := by
  have hs := (take_iff.mp ht).1
  obtain ⟨-, hw⟩ := h.idle hs
  exact {
    idle := by simp [rdStep, reqNext_take ht]
    valid := by simp [rdStep, reqNext_take ht]
    carried := by simp [rdStep, reqNext_take ht, ReqReg.offeredTag]
    consecutive := rfl
    wrTag := by simp [rdStep, tagStep, hs] }

/-- One clock edge keeps the tags in step as long as an offered request is accepted. -/
theorem TagsInStep.step (hready : s.req.txRdReqTlpValidReg = true → i.txRdReqTlpReady = true)
    (ht : s.req.take i = false) (h : TagsInStep s pushed accepted) :
    TagsInStep (rdStep s i)
      (pushed ++ if s.tag.opTagFifoWe then [s.tag.opTagFifoWrTag] else [])
      (accepted ++ if s.req.accept i then [s.req.txRdReqTlpHdrReg.tag] else []) := by
  cases hs : s.req.reqStateReg with
  | idle =>
    obtain ⟨hv, hw⟩ := h.idle hs
    have hc := h.carried
    simp only [ReqReg.offeredTag, hv] at hc
    have ha : s.req.accept i = false := by simp [ReqReg.accept, hv]
    simp only [hw, ha, Bool.false_eq_true, if_false, List.append_nil] at hc ⊢
    exact {
      idle := by simp [rdStep, tagStep, reqNext_idle hs ht, hw]
      valid := by simp [rdStep, reqNext_idle hs ht]
      carried := by simpa [rdStep, reqNext_idle hs ht, ReqReg.offeredTag] using hc
      consecutive := h.consecutive
      wrTag := by simp [rdStep, reqNext_idle hs ht, hs] }
  | start =>
    have hwr := h.wrTag hs
    cases hv : s.req.txRdReqTlpValidReg with
    | true =>
      have ha : s.req.accept i = true := by simp [ReqReg.accept, hv, hready hv]
      have hw := h.valid hv
      have hc := h.carried
      simp only [ReqReg.offeredTag, hv, if_true] at hc
      simp only [hw, ha, Bool.false_eq_true, if_false, List.append_nil, if_true]
      exact {
        idle := by simp [rdStep, tagStep, reqNext_accept hs ha, hw]
        valid := by simp [rdStep, reqNext_accept hs ha]
        carried := by simpa [rdStep, reqNext_accept hs ha, ReqReg.offeredTag] using hc
        consecutive := h.consecutive
        wrTag := by simp [rdStep, tagStep, hs, hw, hwr] }
    | false =>
      have ha : s.req.accept i = false := by simp [ReqReg.accept, hv]
      have hc := h.carried
      simp only [ReqReg.offeredTag, hv, Bool.false_eq_true, if_false, List.append_nil] at hc
      simp only [ha, Bool.false_eq_true, if_false, List.append_nil]
      cases hw : s.tag.opTagFifoWe with
      | true =>
        simp only [if_true]
        exact {
          idle := by simp [rdStep, hw, reqNext_allocate hs ha, hs]
          valid := by simp [rdStep, tagStep, hw]
          carried := by simp [rdStep, hw, reqNext_allocate hs ha, ReqReg.offeredTag, mrdHdr, hc]
          consecutive := by
            rw [hwr]
            exact consecutive_snoc h.consecutive
          wrTag := by simp [rdStep, tagStep, hs, hw, hwr] }
      | false =>
        simp only [Bool.false_eq_true, if_false, List.append_nil]
        exact {
          idle := by simp [rdStep, hw, reqNext_wait hs ha, hs]
          valid := by simp [rdStep, hw, reqNext_wait hs ha]
          carried := by simpa [rdStep, hw, reqNext_wait hs ha, ReqReg.offeredTag] using hc
          consecutive := h.consecutive
          wrTag := by simp [rdStep, tagStep, hs, hw, hwr] }

end Step

theorem tagsInStep_run (i : ℕ → RdInput c)
    (hready : ∀ t, (rdRun (rdReset c) i t).req.txRdReqTlpValidReg = true →
      (i t).txRdReqTlpReady = true) (t : ℕ) :
    TagsInStep (rdRun (rdReset c) i t) (pushedTags (rdReset c) i t)
      (acceptedTags (rdReset c) i t) := by
  induction t with
  | zero => exact ⟨fun _ => ⟨rfl, rfl⟩, nofun, rfl, rfl, nofun⟩
  | succ t ih =>
    simp only [pushedTags, acceptedTags]
    cases ht : (rdRun (rdReset c) i t).req.take (i t) with
    | true => exact ih.step_take ht
    | false => exact ih.step (hready t) ht

/-- Out of reset the handshake law holds in exactly the runs in which the request port is
ready in every cycle that offers a request. -/
theorem mrd_handshake_iff (i : ℕ → RdInput c) :
    HandshakeHolds (rdReset c) i ↔
      ∀ t, (rdRun (rdReset c) i t).req.txRdReqTlpValidReg = true →
        (i t).txRdReqTlpReady = true := by
  constructor
  · intro h t hv
    by_contra hr
    have hw := not_we_of_valid i t hv
    have hheld := (h.held t hv (by simpa using hr)).1
    have hwe := we_of_valid_next hheld
    rw [hw] at hwe
    exact absurd hwe Bool.false_ne_true
  · intro hready
    have hstep := tagsInStep_run i hready
    refine ⟨fun t hv hr => ?_, fun t => (hstep t).carried, fun t => ?_⟩
    · rw [hready t hv] at hr
      exact absurd hr.symm Bool.false_ne_true
    · have hc := (hstep t).consecutive
      rw [(hstep t).carried] at hc
      exact consecutive_prefix hc

/-- A port that is not ready: one descriptor of 64 bytes, started in cycle 0. -/
def stalledInput (t : ℕ) : RdInput ⟨6, 5, 0, 2, tagWidth_five, payloadSize_two⟩ where
  descTxRdReqStart := t == 0
  descTxRdReqLength := 64
  descTxRdReqAddress := 0
  txRdReqTlpReady := false
  rxCplTlpValid := false
  rxCplTlpHdr := 0
  rxCplTlpData := fun _ => 0
  mAxisTlpTready := true

/-- The request of `stalledInput` is offered in cycle 3 and withdrawn in cycle 4. -/
theorem stalled_request_dropped : ¬ HandshakeHolds (rdReset _) stalledInput := by
  intro h
  have hdrop := (h.held 3 (by decide) rfl).1
  exact absurd hdrop (by decide)

end FpgaPcie
