import FpgaPcie.Rtl.DmaRdInvariant

/-!
# One clock edge of a running descriptor

Each part of the invariant is kept by a clock edge with a legal host and no new descriptor.
-/

namespace FpgaPcie

variable {c : RdConfig} {mem : HostMem} {address length : ℕ}

/-! ### The request FSM -/

section Request

variable {s : RdState c} {i : RdInput c} {requested : ℕ}

lemma take_eq_false {r : ReqReg} (hstart : i.descTxRdReqStart = false) : r.take i = false := by
  simp [ReqReg.take, hstart]

lemma accept_eq_valid (hready : s.req.txRdReqTlpValidReg = true → i.txRdReqTlpReady = true) :
    s.req.accept i = s.req.txRdReqTlpValidReg := by
  cases hv : s.req.txRdReqTlpValidReg with
  | false => simp [ReqReg.accept, hv]
  | true => simp [ReqReg.accept, hv, hready hv]

lemma valid_of_accept (hacc : s.req.accept i = true) :
    s.req.txRdReqTlpValidReg = true := by
  simp only [ReqReg.accept, Bool.and_eq_true] at hacc
  exact hacc.2

lemma lengthReg_stays (ht : s.req.take i = false) {we : Bool} {wrTag : ℕ} :
    (reqNext c s.req i we wrTag).descTxRdReqLengthReg = s.req.descTxRdReqLengthReg := by
  cases hs : s.req.reqStateReg with
  | idle => rw [reqNext_idle hs ht]
  | start =>
    cases ha : s.req.accept i with
    | true => rw [reqNext_accept hs ha]
    | false =>
      cases we with
      | true => rw [reqNext_allocate hs ha]
      | false => rw [reqNext_wait hs ha]

lemma startReg_falls (hlow : s.req.reqStateReg = .idle → i.descTxRdReqStart = false) :
    (rdStep s i).req.descTxRdReqStartReg = false := by
  cases hs : s.req.reqStateReg with
  | idle => simp [rdStep, reqNext_idle hs (take_eq_false (hlow hs)), hlow hs]
  | start =>
    cases ha : s.req.accept i with
    | true => simp [rdStep, reqNext_accept hs ha]
    | false =>
      cases hw : s.tag.opTagFifoWe with
      | true => simp [rdStep, hw, reqNext_allocate hs ha]
      | false => simp [rdStep, hw, reqNext_wait hs ha]

lemma reqAddress_succ (address k : ℕ) :
    (reqAddress c address k + mrrs c) % 2 ^ 64 = reqAddress c address (k + 1) := by
  rw [reqAddress, reqAddress, Nat.mod_add_mod, Nat.mul_succ, Nat.add_assoc]

lemma ReqInv.requested_le (h : ReqInv address length s requested) :
    requested ≤ reqCount c length := by
  cases hs : s.req.reqStateReg with
  | idle => exact (h.idle hs).1.le
  | start => exact (h.start hs).1.le

lemma ReqInv.state_start (h : ReqInv address length s requested)
    (hv : s.req.txRdReqTlpValidReg = true ∨ s.tag.opTagFifoWe = true) :
    s.req.reqStateReg = .start := by
  cases hs : s.req.reqStateReg with
  | start => rfl
  | idle =>
    obtain ⟨-, hv', hw', -⟩ := h.idle hs
    simp [hv', hw'] at hv

theorem ReqInv.step (hc : c.Wide512) (haddr : address % 4 = 0) (hlen : length < 2 ^ 32)
    (hstart : i.descTxRdReqStart = false)
    (hready : s.req.txRdReqTlpValidReg = true → i.txRdReqTlpReady = true)
    (h : ReqInv address length s requested) :
    ReqInv address length (rdStep s i) (requested + (s.req.accept i).toNat) := by
  have ht : s.req.take i = false := take_eq_false hstart
  have ha := accept_eq_valid hready
  cases hs : s.req.reqStateReg with
  | idle =>
    obtain ⟨hreq, hv, hw, -⟩ := h.idle hs
    rw [hv] at ha
    refine ⟨?_, fun _ => ?_, ?_, ?_⟩
    · simp [rdStep, reqNext_idle hs ht, h.lengthReg]
    · simp [rdStep, reqNext_idle hs ht, tagStep, ha, hw, hreq, hstart]
    · simp [rdStep, reqNext_idle hs ht, hs]
    · simp [rdStep, reqNext_idle hs ht]
  | start =>
    obtain ⟨hlt, hb, hwr⟩ := h.start hs
    have hcount := reqCount_lt (c := c) hlen
    cases hv : s.req.txRdReqTlpValidReg with
    | true =>
      rw [hv] at ha
      obtain ⟨hw, -, -⟩ := h.valid hv
      have hop : (s.req.opCycleReg + 1) % 2 ^ 32 = requested + 1 := by
        rw [hb.opCycle]
        omega
      simp only [RdState.allocated, hv, Bool.toNat_true] at hwr
      rw [ha, Bool.toNat_true]
      refine ⟨?_, fun hi => ?_, fun hi => ?_, ?_⟩
      · simp [rdStep, reqNext_accept hs ha, h.lengthReg]
      · simp only [rdStep, reqNext_accept hs ha, hop, hb.trCycle] at hi
        split at hi
        · refine ⟨by assumption, ?_, ?_, ?_⟩
          · simp [rdStep, reqNext_accept hs ha]
          · simp [rdStep, reqNext_accept hs ha, tagStep]
          · simp [rdStep, reqNext_accept hs ha]
        · cases hi
      · simp only [rdStep, reqNext_accept hs ha, hop, hb.trCycle] at hi
        split at hi
        · cases hi
        · refine ⟨by omega, ?_, ?_⟩
          · simp only [rdStep, reqNext_accept hs ha, shiftLeft_mrrs, hb.tlpAddress]
            exact ⟨hb.lengthReg, hb.addressReg, hb.trCycle, hop, reqAddress_succ address requested⟩
          · simp [rdStep, reqNext_accept hs ha, tagStep, RdState.allocated, hs, hw, hwr]
      · simp [rdStep, reqNext_accept hs ha]
    | false =>
      rw [hv] at ha
      simp only [RdState.allocated, hv, Bool.toNat_false, Nat.add_zero] at hwr
      rw [ha, Bool.toNat_false, Nat.add_zero]
      cases hw : s.tag.opTagFifoWe with
      | true =>
        refine ⟨?_, ?_, fun _ => ⟨hlt, ?_, ?_⟩, fun _ => ⟨?_, ?_, ?_⟩⟩
        · simp [rdStep, hw, reqNext_allocate hs ha, h.lengthReg]
        · simp [rdStep, hw, reqNext_allocate hs ha, hs]
        · simp only [rdStep, hw, reqNext_allocate hs ha]
          exact ⟨hb.lengthReg, hb.addressReg, hb.trCycle, hb.opCycle, hb.tlpAddress⟩
        · simp [rdStep, hw, reqNext_allocate hs ha, tagStep, RdState.allocated, hs, hwr]
        · simp [rdStep, hw, tagStep]
        · simp only [rdStep, hw, reqNext_allocate hs ha]
          exact hc.mrdHdr hb hlen haddr hlt _
        · simp [rdStep, hw, reqNext_allocate hs ha, mrdHdr, hwr]
      | false =>
        refine ⟨?_, ?_, fun _ => ⟨hlt, ?_, ?_⟩, ?_⟩
        · simp [rdStep, hw, reqNext_wait hs ha, h.lengthReg]
        · simp [rdStep, hw, reqNext_wait hs ha, hs]
        · simp only [rdStep, hw, reqNext_wait hs ha]
          exact ⟨hb.lengthReg, hb.addressReg, hb.trCycle, hb.opCycle, hb.tlpAddress⟩
        · simp [rdStep, hw, reqNext_wait hs ha, tagStep, RdState.allocated, hs, hwr]
        · simp [rdStep, hw, reqNext_wait hs ha]

lemma allocated_step (ht : s.req.take i = false)
    (hready : s.req.txRdReqTlpValidReg = true → i.txRdReqTlpReady = true)
    (hidle : s.req.reqStateReg = .idle → s.req.txRdReqTlpValidReg = false ∧ s.tag.opTagFifoWe = false)
    (hvalid : s.req.txRdReqTlpValidReg = true → s.tag.opTagFifoWe = false) :
    (rdStep s i).allocated (requested + (s.req.accept i).toNat) =
      s.allocated requested + s.tag.opTagFifoWe.toNat := by
  have ha := accept_eq_valid hready
  unfold RdState.allocated
  cases hs : s.req.reqStateReg with
  | idle =>
    obtain ⟨hv, hw⟩ := hidle hs
    simp [rdStep, reqNext_idle hs ht, ha, hv, hw]
  | start =>
    cases hv : s.req.txRdReqTlpValidReg with
    | true =>
      rw [hv] at ha
      simp [rdStep, reqNext_accept hs ha, ha, hvalid hv]
    | false =>
      rw [hv] at ha
      cases hw : s.tag.opTagFifoWe with
      | true => simp [rdStep, hw, reqNext_allocate hs ha, ha]
      | false => simp [rdStep, hw, reqNext_wait hs ha, ha]

lemma ReqInv.allocated_next (hstart : i.descTxRdReqStart = false)
    (hready : s.req.txRdReqTlpValidReg = true → i.txRdReqTlpReady = true)
    (h : ReqInv address length s requested) :
    (rdStep s i).allocated (requested + (s.req.accept i).toNat) =
      s.allocated requested + s.tag.opTagFifoWe.toNat :=
  allocated_step (take_eq_false hstart) hready (fun hs => ⟨(h.idle hs).2.1, (h.idle hs).2.2.1⟩)
    fun hv => (h.valid hv).1

lemma ReqInv.not_valid_of_we (h : ReqInv address length s requested)
    (hw : s.tag.opTagFifoWe = true) : s.req.txRdReqTlpValidReg = false := by
  by_contra hv
  rw [(h.valid (by simpa using hv)).1] at hw
  exact Bool.false_ne_true hw

lemma ReqInv.byteCycle_next (hc : c.Wide512) (hlen : length < 2 ^ 32)
    (h : ReqInv address length s requested) (hw : s.tag.opTagFifoWe = true) :
    (rdStep s i).req.byteCycleReg = endBeat length requested - 8 * requested := by
  have hs := h.state_start (.inr hw)
  have hv := h.not_valid_of_we hw
  have ha : s.req.accept i = false := by simp [ReqReg.accept, hv]
  obtain ⟨hlt, hb, -⟩ := h.start hs
  simp only [rdStep, hw, reqNext_allocate hs ha]
  rw [hc.byteCycleNext hb hlen hlt, hc.beatCount, hc.reqBytes, endBeat]
  rw [hc.reqCount] at hlt
  omega

end Request

/-! ### The request at the read pointer -/

/-- The request at the read pointer is being emitted. -/
structure RdState.Emitting (s : RdState c) (length : ℕ) (g : RdProgress) : Prop where
  rd : s.tag.opTagFifoRd = false
  le_emitted : 8 * g.popped ≤ g.emitted
  emitted_lt : g.emitted < endBeat length g.popped
  cycleReg : s.tr.cycleReg = g.emitted - 8 * g.popped
  trState : s.tr.trStateReg = .start

section Current

variable {x : RdSystem c} {i : RdInput c} {g : RdProgress}

lemma tagCount_pos (c : RdConfig) : 0 < 2 ^ c.pcieTagWidth := by positivity

lemma endBeat_le_all (length k : ℕ) : endBeat length k ≤ (length + 63) / 64 := Nat.min_le_right _ _

lemma RdInv.popped_le (h : RdInv mem address length x g) : g.popped ≤ reqCount c length :=
  h.tag.popped_le.trans h.req.requested_le

lemma RdInv.currentSlot (h : RdInv mem address length x g) :
    SlotInv mem address length x g g.popped :=
  h.data.slot g.popped le_rfl (by have := tagCount_pos c; omega)

lemma RdInv.emitting (h : RdInv mem address length x g)
    (hrd : x.engine.tag.opTagFifoRd = false) (hlt : g.popped < reqCount c length) :
    x.engine.Emitting length g := by
  obtain ⟨hge, hend, hcyc⟩ := h.tag.current hrd hlt
  refine ⟨hrd, hge, hend, hcyc, ?_⟩
  cases htr : x.engine.tr.trStateReg with
  | start => rfl
  | idle =>
    have hN := h.out.idle htr
    have := endBeat_le_all length g.popped
    omega

lemma RdInv.emitting_of_words (h : RdInv mem address length x g)
    (hne : x.engine.arrivedWords (g.popped % 2 ^ c.pcieTagWidth) ≠ []) :
    g.popped < g.requested ∧ x.engine.Emitting length g := by
  have hslot := h.currentSlot
  have hlo := hslot.lo_le
  have hlt : max (8 * g.popped) g.emitted < g.arrived g.popped := by
    by_contra hge
    exact hne (hslot.words.eq_nil (by omega))
  have hreq : g.popped < g.requested := by
    by_contra hge
    have := h.data.arrived g.popped (by omega)
    omega
  have hend := (hslot.owed hreq).1
  have hrd : x.engine.tag.opTagFifoRd = false := by
    by_contra ht
    have := (h.tag.release (by simpa using ht)).2.1
    omega
  exact ⟨hreq, h.emitting hrd (Nat.lt_of_lt_of_le hreq h.req.requested_le)⟩

lemma RdInv.emit_eq (h : RdInv mem address length x g) : x.engine.emit =
    (x.engine.tr.cpldDataFifoRdEnReg (g.popped % 2 ^ c.pcieTagWidth) &&
      !(x.engine.cpldDataFifo (g.popped % 2 ^ c.pcieTagWidth)).words.isEmpty) := by
  rw [RdState.emit, h.tag.rdptr]
  cases hw : (x.engine.cpldDataFifo (g.popped % 2 ^ c.pcieTagWidth)).words with
  | nil => simp
  | cons w ws =>
    have hem := (h.emitting_of_words (by simp [RdState.arrivedWords, hw])).2
    simp [hem.trState]

lemma RdInv.emitting_of_emit (h : RdInv mem address length x g) (he : x.engine.emit = true) :
    g.popped < g.requested ∧ x.engine.Emitting length g := by
  rw [h.emit_eq] at he
  apply h.emitting_of_words
  intro hnil
  rw [RdState.arrivedWords, List.append_eq_nil_iff] at hnil
  simp [hnil.1] at he

lemma RdInv.not_emit_of_release (h : RdInv mem address length x g)
    (hrd : x.engine.tag.opTagFifoRd = true) : x.engine.emit = false := by
  by_contra he
  have hem := (h.emitting_of_emit (by simpa using he)).2.rd
  rw [hrd] at hem
  exact Bool.false_ne_true hem.symm

lemma RdState.Emitting.cycleNext {s : RdState c} (h : s.Emitting length g) :
    s.cycleNext = g.emitted + s.emit.toNat - 8 * g.popped := by
  have hlt := h.emitted_lt
  have hge := h.le_emitted
  have hb := endBeat_le length g.popped
  unfold RdState.cycleNext
  rw [h.trState, h.cycleReg]
  cases s.emit with
  | false => simp
  | true =>
    simp only [if_true, Bool.toNat_true]
    omega

lemma cycleNext_zero {s : RdState c} (he : s.emit = false) (hcyc : s.tr.cycleReg = 0) : s.cycleNext = 0 := by
  unfold RdState.cycleNext
  cases s.tr.trStateReg <;> simp [he, hcyc]

lemma not_leaves_of_no_take {s : RdState c} (ht : s.req.take i = false) :
    ¬(s.req.reqStateReg = .idle ∧ s.req.reqStateReg ≠
      (reqNext c s.req i s.tag.opTagFifoWe s.tag.opTagFifoWrTag).reqStateReg) := by
  rintro ⟨hs, hne⟩
  rw [reqNext_idle hs ht] at hne
  exact hne rfl

lemma opTagFifoRd_step {s : RdState c} (ht : s.req.take i = false) :
    (rdStep s i).tag.opTagFifoRd = (!s.tag.opTagFifoRd &&
      (s.tr.cpldDataFifoRdEnReg s.tag.opTagFifoRdptr &&
        decide (s.cycleNext = s.tag.tagTableInfo s.tag.opTagFifoRdptr))) := by
  simp only [rdStep, tagStep, if_neg (not_leaves_of_no_take ht)]
  cases s.tag.opTagFifoRd <;> simp

lemma opTagFifoRdptr_step {s : RdState c} (ht : s.req.take i = false) :
    (rdStep s i).tag.opTagFifoRdptr = if s.tag.opTagFifoRd then
      (s.tag.opTagFifoRdptr + 1) % 2 ^ c.pcieTagWidth else s.tag.opTagFifoRdptr := by
  simp only [rdStep, tagStep, if_neg (not_leaves_of_no_take ht)]

lemma RdInv.table_current (h : RdInv mem address length x g) :
    x.engine.tag.tagTableInfo (g.popped % 2 ^ c.pcieTagWidth) =
      if g.popped < x.engine.allocated g.requested then endBeat length g.popped - 8 * g.popped
      else 0 :=
  h.tag.table g.popped le_rfl (by have := tagCount_pos c; omega)

/-- The release pulse of the tag allocator follows the last beat of a request. -/
lemma RdInv.release_next (h : RdInv mem address length x g) (hstart : i.descTxRdReqStart = false) :
    (rdStep x.engine i).tag.opTagFifoRd = true ↔
      x.engine.emit = true ∧ g.emitted + 1 = endBeat length g.popped := by
  rw [opTagFifoRd_step (take_eq_false hstart), h.tag.rdptr, h.table_current]
  simp only [Bool.and_eq_true, Bool.not_eq_true', decide_eq_true_eq]
  constructor
  · rintro ⟨hrd, hen, hcyc⟩
    obtain ⟨-, hlt⟩ := h.tag.rdEn _ hen
    have hem := h.emitting hrd (Nat.lt_of_lt_of_le hlt h.req.requested_le)
    have hge := hem.le_emitted
    have hend := hem.emitted_lt
    have halloc : g.popped < x.engine.allocated g.requested := by
      unfold RdState.allocated
      omega
    rw [hem.cycleNext, if_pos halloc] at hcyc
    cases he : x.engine.emit with
    | false =>
      rw [he, Bool.toNat_false] at hcyc
      omega
    | true =>
      rw [he, Bool.toNat_true] at hcyc
      exact ⟨rfl, by omega⟩
  · rintro ⟨he, hend⟩
    obtain ⟨hlt, hem⟩ := h.emitting_of_emit he
    have hge := hem.le_emitted
    have halloc : g.popped < x.engine.allocated g.requested := by
      unfold RdState.allocated
      omega
    refine ⟨hem.rd, ?_, ?_⟩
    · rw [h.emit_eq, Bool.and_eq_true] at he
      exact he.1
    · rw [hem.cycleNext, if_pos halloc, he, Bool.toNat_true]
      omega

lemma RdInv.cycleReg_next (h : RdInv mem address length x g) :
    (rdStep x.engine i).tr.cycleReg =
      if x.engine.cycleNext = x.engine.tag.tagTableInfo (g.popped % 2 ^ c.pcieTagWidth) then 0
      else x.engine.cycleNext := by
  simp only [rdStep, trStep, h.tag.rdptr]

lemma owner_unique {m p k l : ℕ} (hk : p ≤ k ∧ k < p + m) (hl : p ≤ l ∧ l < p + m)
    (h : k % m = l % m) : k = l := by
  have hinj := RingBuffer.cell_injective (M := m) (a := p) (i := k - p) (j := l - p) (by omega)
    (by omega) (by rwa [Nat.add_sub_cancel' hk.1, Nat.add_sub_cancel' hl.1])
  omega

/-- With the requests from `p` up to `a` in the table, a clock edge puts the next one in and takes the first
one out. -/
lemma table_step {s : RdState c} {req : ReqReg} {p a : ℕ} {b : ℕ → ℕ}
    (hptr : s.tag.opTagFifoRdptr = p % 2 ^ c.pcieTagWidth) (hle : p ≤ a)
    (hbound : a ≤ p + 2 ^ c.pcieTagWidth)
    (hwe : s.tag.opTagFifoWe = true → a < p + 2 ^ c.pcieTagWidth ∧
      s.tag.opTagFifoWrTag = a % 2 ^ c.pcieTagWidth ∧ req.byteCycleReg = b a)
    (htable : ∀ k, p ≤ k → k < p + 2 ^ c.pcieTagWidth →
      s.tag.tagTableInfo (k % 2 ^ c.pcieTagWidth) = if k < a then b k else 0)
    {k : ℕ} (hk : p + s.tag.opTagFifoRd.toNat ≤ k)
    (hkm : k < p + s.tag.opTagFifoRd.toNat + 2 ^ c.pcieTagWidth) :
    (tagStep s req).tagTableInfo (k % 2 ^ c.pcieTagWidth) =
      if k < a + s.tag.opTagFifoWe.toNat then b k else 0 := by
  have hM := tagCount_pos c
  simp only [tagStep, hptr]
  -- the slot released in this cycle is the one that request `p + M` will own
  by_cases hfree : s.tag.opTagFifoRd = true ∧ k % 2 ^ c.pcieTagWidth = p % 2 ^ c.pcieTagWidth
  · rw [if_pos hfree]
    rw [hfree.1, Bool.toNat_true] at hk hkm
    have hkp : k = p + 2 ^ c.pcieTagWidth := by
      by_contra hne
      have := owner_unique (m := 2 ^ c.pcieTagWidth) (p := p) ⟨by omega, by omega⟩
        ⟨le_rfl, by omega⟩ hfree.2
      omega
    rw [if_neg]
    cases hw : s.tag.opTagFifoWe with
    | true =>
      have := (hwe hw).1
      rw [Bool.toNat_true]
      omega
    | false =>
      rw [Bool.toNat_false]
      omega
  · rw [if_neg hfree]
    have hwin : p ≤ k ∧ k < p + 2 ^ c.pcieTagWidth := by
      cases hrd : s.tag.opTagFifoRd with
      | false =>
        rw [hrd, Bool.toNat_false] at hk hkm
        exact ⟨hk, hkm⟩
      | true =>
        rw [hrd, Bool.toNat_true] at hk hkm
        refine ⟨by omega, ?_⟩
        by_contra hge
        have hkp : k = p + 2 ^ c.pcieTagWidth := by omega
        exact hfree ⟨hrd, by rw [hkp, Nat.add_mod_right]⟩
    have hold := htable k hwin.1 hwin.2
    cases hw : s.tag.opTagFifoWe with
    | false => simpa using hold
    | true =>
      obtain ⟨hr, hwr, hbyte⟩ := hwe hw
      rw [hbyte, hwr]
      by_cases heq : k % 2 ^ c.pcieTagWidth = a % 2 ^ c.pcieTagWidth
      · have hka := owner_unique hwin ⟨hle, hr⟩ heq
        rw [if_pos ⟨rfl, heq⟩, if_pos (by simp; omega), hka]
      · have hne : k ≠ a := fun he => heq (by rw [he])
        rw [if_neg (fun hcon => heq hcon.2), hold, Bool.toNat_true]
        split_ifs <;> first | rfl | omega

lemma TagInv.table_next (hc : c.Wide512) (hlen : length < 2 ^ 32)
    (hstart : i.descTxRdReqStart = false)
    (hready : x.engine.req.txRdReqTlpValidReg = true → i.txRdReqTlpReady = true)
    (h : RdInv mem address length x g) {k : ℕ} (hk : (g.next x i).popped ≤ k)
    (hkm : k < (g.next x i).popped + 2 ^ c.pcieTagWidth) :
    (rdStep x.engine i).tag.tagTableInfo (k % 2 ^ c.pcieTagWidth) =
      if k < (rdStep x.engine i).allocated (g.next x i).requested
      then endBeat length k - 8 * k else 0 := by
  have halloc : (rdStep x.engine i).allocated (g.next x i).requested =
      x.engine.allocated g.requested + x.engine.tag.opTagFifoWe.toNat :=
    h.req.allocated_next hstart hready
  have hpop := h.tag.popped_le
  have hf := h.tag.fifo
  have hb := x.engine.tag.opTagFifo.length_le
  rw [halloc]
  apply table_step (b := fun k => endBeat length k - 8 * k) h.tag.rdptr (by unfold RdState.allocated; omega)
    (by omega) (fun hw => ?_) h.tag.table hk hkm
  have hwr := (h.req.start (h.req.state_start (.inr hw))).2.2
  have hv := h.req.not_valid_of_we hw
  have halloc' : x.engine.allocated g.requested = g.requested := by simp [RdState.allocated, hv]
  refine ⟨h.tag.room hw, hwr, ?_⟩
  rw [halloc']
  exact h.req.byteCycle_next hc hlen hw

lemma rdEnNext_words {s : RdState c} {tag : ℕ} (h : (rdStep s i).tr.cpldDataFifoRdEnReg tag = true) :
    tag = s.tag.opTagFifoRdptr ∧ s.out.outFifoHalfFullReg = false ∧
      (s.cpldDataFifo s.tag.opTagFifoRdptr).words ≠ [] := by
  simp only [rdStep, trStep, rdEnNext] at h
  cases htr : s.tr.trStateReg with
  | idle => simp [htr] at h
  | start =>
    simp only [htr, Bool.and_eq_true, beq_iff_eq, Bool.not_eq_true', List.isEmpty_eq_false_iff] at h
    exact h

/-- `op_tag_fifo` counts the requests from `p` up to `a`. -/
lemma tagFifo_step {s : RdState c} {req : ReqReg} {p n a : ℕ} (hfifo : s.tag.opTagFifo.words.length = a - p)
    (hp : p ≤ n) (hn : n ≤ a) (hroom : s.tag.opTagFifoWe = true → a < p + 2 ^ c.pcieTagWidth)
    (hrd : s.tag.opTagFifoRd = true → p < n) :
    (tagStep s req).opTagFifo.words.length =
      a + s.tag.opTagFifoWe.toNat - (p + s.tag.opTagFifoRd.toNat) := by
  have hbound := s.tag.opTagFifo.length_le
  have hwr : s.tag.opTagFifo.words.length + (if s.tag.opTagFifoWe = true then
      [s.tag.opTagFifoWrTag] else []).length ≤ 2 ^ c.pcieTagWidth := by
    cases hw : s.tag.opTagFifoWe with
    | false => simpa using hbound
    | true =>
      have := hroom hw
      simp only [if_true, List.length_singleton]
      omega
  simp only [tagStep]
  rw [BoundedQueue.clock_words _ _ _ hwr]
  cases h : s.tag.opTagFifoRd with
  | false => cases hw : s.tag.opTagFifoWe <;> simp <;> omega
  | true =>
    have := hrd h
    cases hw : s.tag.opTagFifoWe <;> simp <;> omega

theorem TagInv.step (hc : c.Wide512) (hlen : length < 2 ^ 32)
    (hstart : i.descTxRdReqStart = false)
    (hready : x.engine.req.txRdReqTlpValidReg = true → i.txRdReqTlpReady = true)
    (h : RdInv mem address length x g) : TagInv length (rdStep x.engine i) (g.next x i) := by
  have halloc : (rdStep x.engine i).allocated (g.next x i).requested =
      x.engine.allocated g.requested + x.engine.tag.opTagFifoWe.toNat :=
    h.req.allocated_next hstart hready
  have hM := tagCount_pos c
  have hfifo := h.tag.fifo
  have hbound := x.engine.tag.opTagFifo.length_le
  have hle : g.requested ≤ x.engine.allocated g.requested := Nat.le_add_right _ _
  refine ⟨?_, ?_, fun hw => ?_, ?_, fun k => TagInv.table_next hc hlen hstart hready h,
    fun tag hen => ?_, fun hrd => ?_, fun hrd hlt => ?_, fun hrd hlt => ?_⟩
  · have hpop := h.tag.popped_le
    cases hrd : x.engine.tag.opTagFifoRd with
    | false =>
      simp only [RdProgress.next, hrd, Bool.toNat_false]
      omega
    | true =>
      have := (h.tag.release hrd).1
      simp only [RdProgress.next, hrd, Bool.toNat_true]
      omega
  · rw [halloc]
    exact tagFifo_step hfifo h.tag.popped_le hle h.tag.room fun hrd => (h.tag.release hrd).1
  · have hpop := h.tag.popped_le
    rw [halloc]
    simp only [rdStep, tagStep] at hw
    cases hwe : x.engine.tag.opTagFifoWe with
    | true => simp [hwe] at hw
    | false =>
      simp only [hwe, Bool.false_eq_true, if_false, Bool.and_eq_true, decide_eq_true_eq] at hw
      simp only [RdProgress.next, Bool.toNat_false]
      omega
  · rw [opTagFifoRdptr_step (take_eq_false hstart), h.tag.rdptr]
    cases hrd : x.engine.tag.opTagFifoRd <;> simp [RdProgress.next, hrd]
  · obtain ⟨htag, -, hne⟩ := rdEnNext_words hen
    rw [h.tag.rdptr] at htag hne
    obtain ⟨hlt, hem⟩ := h.emitting_of_words
      (fun hnil => hne (List.append_eq_nil_iff.mp hnil).1)
    simp only [RdProgress.next, hem.rd, Bool.toNat_false, Nat.add_zero]
    exact ⟨htag, by omega⟩
  · obtain ⟨he, hend⟩ := (h.release_next hstart).mp hrd
    obtain ⟨hlt, hem⟩ := h.emitting_of_emit he
    have hge := hem.le_emitted
    have htable : x.engine.tag.tagTableInfo (g.popped % 2 ^ c.pcieTagWidth) =
        endBeat length g.popped - 8 * g.popped := by
      rw [h.table_current, if_pos (by omega)]
    simp only [RdProgress.next, hem.rd, he, Bool.toNat_false, Bool.toNat_true, Nat.add_zero]
    refine ⟨by omega, hend, ?_⟩
    rw [h.cycleReg_next, hem.cycleNext, htable, he, Bool.toNat_true, hend, if_pos rfl]
  · have hmore : ¬(x.engine.emit = true ∧ g.emitted + 1 = endBeat length g.popped) := by
      rw [← h.release_next hstart, hrd]
      exact Bool.false_ne_true
    rw [h.cycleReg_next]
    rw [hc.reqCount] at hlt
    cases hold : x.engine.tag.opTagFifoRd with
    | true =>
      obtain ⟨-, hend, hcyc⟩ := h.tag.release hold
      have he := h.not_emit_of_release hold
      have hnext := cycleNext_zero he hcyc
      simp only [RdProgress.next, hold, he, Bool.toNat_true, Bool.toNat_false, Nat.add_zero] at hlt ⊢
      unfold endBeat at hend ⊢
      rw [hnext, ite_self]
      omega
    | false =>
      simp only [RdProgress.next, hold, Bool.toNat_false, Nat.add_zero] at hlt ⊢
      have hem := h.emitting hold (by rw [hc.reqCount]; exact hlt)
      have hge := hem.le_emitted
      have hend := hem.emitted_lt
      rw [hem.cycleNext, h.table_current]
      cases he : x.engine.emit with
      | true =>
        simp only [he, true_and] at hmore
        rw [Bool.toNat_true]
        refine ⟨by omega, by omega, ?_⟩
        split_ifs <;> omega
      | false =>
        rw [Bool.toNat_false]
        refine ⟨by omega, by omega, ?_⟩
        split_ifs <;> omega
  · rw [hc.reqCount] at hlt
    cases hold : x.engine.tag.opTagFifoRd with
    | true =>
      have hend := (h.tag.release hold).2.1
      have he := h.not_emit_of_release hold
      simp only [RdProgress.next, hold, he, Bool.toNat_true, Bool.toNat_false, Nat.add_zero] at hlt ⊢
      unfold endBeat at hend
      omega
    | false =>
      simp only [RdProgress.next, hold, Bool.toNat_false, Nat.add_zero] at hlt ⊢
      have he : x.engine.emit = false := by
        by_contra ht
        have hpop := (h.emitting_of_emit (by simpa using ht)).1
        have := h.req.requested_le
        rw [hc.reqCount] at this
        omega
      rw [he, Bool.toNat_false, Nat.add_zero]
      exact h.tag.finished hold (by rw [hc.reqCount]; exact hlt)

/-! ### The data FIFOs -/

lemma RdInv.allocated_le (h : RdInv mem address length x g) :
    x.engine.allocated g.requested ≤ g.popped + 2 ^ c.pcieTagWidth := by
  have hf := h.tag.fifo
  have hb := x.engine.tag.opTagFifo.length_le
  omega

lemma RdInv.requested_lt (h : RdInv mem address length x g)
    (hv : x.engine.req.txRdReqTlpValidReg = true) :
    g.requested < g.popped + 2 ^ c.pcieTagWidth := by
  have hle := h.allocated_le
  simp only [RdState.allocated, hv, Bool.toNat_true] at hle
  omega

lemma SlotInv.arrivedWords_length_le (hd : DataInv mem address length x g) {k : ℕ}
    (hs : SlotInv mem address length x g k) :
    (x.engine.arrivedWords (k % 2 ^ c.pcieTagWidth)).length ≤ 8 := by
  rw [hs.words.count]
  by_cases hk : k < g.requested
  · have := (hs.owed hk).1
    have := endBeat_le length k
    omega
  · have := hd.arrived k (by omega)
    omega

lemma RdInv.arrivedWords_next (h : RdInv mem address length x g) {k : ℕ} (hk : g.popped ≤ k)
    (hkm : k < g.popped + 2 ^ c.pcieTagWidth) :
    (rdStep x.engine i).arrivedWords (k % 2 ^ c.pcieTagWidth) =
      (if x.engine.emit = true ∧ k = g.popped then
        (x.engine.arrivedWords (k % 2 ^ c.pcieTagWidth)).tail
      else x.engine.arrivedWords (k % 2 ^ c.pcieTagWidth)) ++
      if x.engine.stores i (k % 2 ^ c.pcieTagWidth) then [i.rxCplTlpData] else [] := by
  have hlen8 := SlotInv.arrivedWords_length_le h.data (h.data.slot k hk hkm)
  have hnew : (if (rdStep x.engine i).recv.cpldDataFifoWrEnReg (k % 2 ^ c.pcieTagWidth) then
      [(rdStep x.engine i).recv.cpldDataFifoDinReg (k % 2 ^ c.pcieTagWidth)] else []) =
      if x.engine.stores i (k % 2 ^ c.pcieTagWidth) then [i.rxCplTlpData] else [] := by
    simp only [rdStep, recvStep]
    by_cases hst : x.engine.stores i (k % 2 ^ c.pcieTagWidth) = true <;> simp [hst]
  rw [RdState.arrivedWords, hnew]
  congr 1
  unfold RdState.arrivedWords at hlen8 ⊢
  rw [List.length_append] at hlen8
  simp only [rdStep, cpldFifoStep]
  rw [BoundedQueue.clock_words _ _ _ (by omega)]
  -- the read enable is only raised for the tag at the read pointer
  by_cases hkp : k = g.popped
  · subst hkp
    have he := h.emit_eq
    cases hw : (x.engine.cpldDataFifo (g.popped % 2 ^ c.pcieTagWidth)).words with
    | nil =>
      rw [hw] at he
      simp [he]
    | cons w ws =>
      rw [hw] at he
      simp only [List.isEmpty_cons, Bool.not_false, Bool.and_true] at he
      rw [← he]
      cases x.engine.emit <;> simp
  · have hen : x.engine.tr.cpldDataFifoRdEnReg (k % 2 ^ c.pcieTagWidth) = false := by
      by_contra ht
      have htag := (h.tag.rdEn _ (by simpa using ht)).1
      exact hkp (owner_unique ⟨hk, hkm⟩ ⟨le_rfl, by omega⟩ htag)
    simp [hen, hkp]

/-- With a legal host an accepted completion beat is the next one of the request that owns
its tag. -/
lemma RdInv.accepted_slot (hc : c.Wide512) (hanswers : x.Answers mem i)
    (h : RdInv mem address length x g) (ha : x.engine.cplAccept i = true) {k : ℕ}
    (hown : g.Owns c k (rxCplTlpHdrTag i.rxCplTlpHdr)) :
    k < g.requested ∧ g.arrived k < endBeat length k ∧
      DataOk mem address length (g.arrived k) i.rxCplTlpData := by
  obtain ⟨hk, hkm, htag⟩ := hown
  have hslot := h.data.slot k hk hkm
  have hval : i.rxCplTlpValid = true := by
    simp only [RdState.cplAccept, Bool.and_eq_true] at ha
    exact ha.1
  obtain ⟨b, hb, hdata⟩ := hanswers hval
  rw [← htag] at hb
  have hreq : k < g.requested := by
    by_contra hge
    rw [hslot.none (by omega)] at hb
    cases hb
  obtain ⟨hend, howed⟩ := hslot.owed hreq
  rw [howed] at hb
  have hlt : g.arrived k < endBeat length k := by
    by_contra hge
    rw [Nat.sub_eq_zero_of_le (by omega)] at hb
    cases hb
  obtain ⟨n, hn⟩ : ∃ n, endBeat length k - g.arrived k = n + 1 :=
    ⟨endBeat length k - g.arrived k - 1, by omega⟩
  rw [hn, List.range'_succ, List.map_cons, List.head?_cons, Option.mem_some_iff] at hb
  subst hb
  exact ⟨hreq, hlt, dataOk_of_owed hc hdata⟩

lemma RdSystem.Answers.owed_ne_nil (hanswers : x.Answers mem i)
    (ha : x.engine.cplAccept i = true) : x.owed (rxCplTlpHdrTag i.rxCplTlpHdr) ≠ [] := by
  simp only [RdState.cplAccept, Bool.and_eq_true] at ha
  obtain ⟨b, hb, -⟩ := hanswers ha.1
  intro hnil
  rw [hnil] at hb
  cases hb

lemma DataInv.owed_eq_nil (h : DataInv mem address length x g) (ht : owedTotal c x.owed = 0)
    (tag : ℕ) : x.owed tag = [] := by
  by_cases hlt : tag < 2 ^ c.pcieTagWidth
  · rw [owedTotal, Finset.sum_eq_zero_iff] at ht
    exact List.length_eq_zero_iff.mp (ht tag (Finset.mem_range.mpr hlt))
  · exact h.owed tag (by omega)

lemma RdInv.accepted_tag_lt (hanswers : x.Answers mem i) (h : RdInv mem address length x g)
    (ha : x.engine.cplAccept i = true) :
    rxCplTlpHdrTag i.rxCplTlpHdr < 2 ^ c.pcieTagWidth := by
  by_contra hge
  exact hanswers.owed_ne_nil ha (h.data.owed _ (by omega))

lemma RdInv.recv_start (hanswers : x.Answers mem i) (h : RdInv mem address length x g)
    (ha : x.engine.cplAccept i = true) : x.engine.recv.recvStateReg = .start := by
  cases hr : x.engine.recv.recvStateReg with
  | start => rfl
  | idle =>
    have htot := h.recv.total
    have hzero : owedTotal c x.owed = 0 := by
      cases hs : x.engine.req.descTxRdReqStartReg with
      | true =>
        have := (h.recv.first hs).2.2.2
        omega
      | false =>
        have := h.recv.idle hr hs
        omega
    exact absurd (h.data.owed_eq_nil hzero _) (hanswers.owed_ne_nil ha)

lemma RdInv.stores_eq (hanswers : x.Answers mem i) (h : RdInv mem address length x g) {k : ℕ} :
    x.engine.stores i (k % 2 ^ c.pcieTagWidth) = (x.engine.cplAccept i &&
      decide (k % 2 ^ c.pcieTagWidth = rxCplTlpHdrTag i.rxCplTlpHdr)) := by
  unfold RdState.stores
  by_cases ha : x.engine.cplAccept i = true
  · rw [h.recv_start hanswers ha, ha, Nat.mod_eq_of_lt (h.accepted_tag_lt hanswers ha)]
    simp [Bool.beq_eq_decide_eq]
  · simp [ha]

/-- A request is offered only for a free tag, so it adds nothing to the tags in flight. -/
lemma RdInv.offered_tag (h : RdInv mem address length x g)
    (hacc : x.engine.req.accept i = true) {k : ℕ} (hk : g.popped ≤ k)
    (hkm : k < g.popped + 2 ^ c.pcieTagWidth)
    (htag : k % 2 ^ c.pcieTagWidth = x.engine.req.txRdReqTlpHdrReg.tag) : k = g.requested := by
  have hv := valid_of_accept hacc
  rw [(h.req.valid hv).2.2] at htag
  exact owner_unique ⟨hk, hkm⟩ ⟨h.tag.popped_le, h.requested_lt hv⟩ htag

lemma RdInv.owed_next (hc : c.Wide512) (h : RdInv mem address length x g) {k : ℕ} (hk : g.popped ≤ k)
    (hkm : k < g.popped + 2 ^ c.pcieTagWidth) :
    x.owedNext i (k % 2 ^ c.pcieTagWidth) =
      (if x.engine.cplAccept i = true ∧ k % 2 ^ c.pcieTagWidth = rxCplTlpHdrTag i.rxCplTlpHdr then
        (x.owed (k % 2 ^ c.pcieTagWidth)).tail else x.owed (k % 2 ^ c.pcieTagWidth)) ++
      if x.engine.req.accept i = true ∧ k = g.requested then
        (List.range' (8 * k) (endBeat length k - 8 * k)).map (owedBeat address length) else [] := by
  unfold RdSystem.owedNext
  congr 1
  by_cases hacc : x.engine.req.accept i = true
  · have hv : x.engine.req.txRdReqTlpValidReg = true := by
      simp only [ReqReg.accept, Bool.and_eq_true] at hacc
      exact hacc.2
    obtain ⟨-, hcov, htag⟩ := h.req.valid hv
    have hlt := (h.req.start (h.req.state_start (.inl hv))).1
    by_cases hkr : k = g.requested
    · subst hkr
      rw [if_pos ⟨hacc, htag.symm⟩, if_pos ⟨hacc, rfl⟩]
      exact cplBeats_eq hc hlt hcov
    · rw [if_neg (fun hcon => hkr (h.offered_tag hacc hk hkm hcon.2)), if_neg (fun hcon => hkr hcon.2)]
  · simp [hacc]

lemma tail_range'_map {f : ℕ → CplBeat} (a n : ℕ) :
    ((List.range' a n).map f).tail = (List.range' (a + 1) (n - 1)).map f := by
  cases n with
  | zero => rfl
  | succ n => rw [List.range'_succ, List.map_cons, List.tail_cons, Nat.add_sub_cancel]

/-- The first beat of request `k` that is not emitted moves with the beats of request `k`. -/
lemma RdInv.lo_next (h : RdInv mem address length x g) {k : ℕ} (hk : g.popped ≤ k) :
    max (8 * k) (g.next x i).emitted = max (8 * k) g.emitted +
      if x.engine.emit = true ∧ k = g.popped then 1 else 0 := by
  cases he : x.engine.emit with
  | false => simp [RdProgress.next, he]
  | true =>
    have hem := (h.emitting_of_emit he).2
    have hge := hem.le_emitted
    have hlt := hem.emitted_lt
    have hend := endBeat_le length g.popped
    simp only [RdProgress.next, he, Bool.toNat_true, true_and]
    split_ifs <;> omega

/-- The words of request `k` after this cycle's emission. -/
lemma RdInv.carries_emit (h : RdInv mem address length x g) {k : ℕ} (hk : g.popped ≤ k)
    (hkm : k < g.popped + 2 ^ c.pcieTagWidth) :
    max (8 * k) (g.next x i).emitted ≤ g.arrived k ∧
      Carries mem address length (max (8 * k) (g.next x i).emitted) (g.arrived k)
        (if x.engine.emit = true ∧ k = g.popped then
          (x.engine.arrivedWords (k % 2 ^ c.pcieTagWidth)).tail
        else x.engine.arrivedWords (k % 2 ^ c.pcieTagWidth)) := by
  have hslot := h.data.slot k hk hkm
  rw [h.lo_next hk]
  split_ifs with hep
  · refine ⟨?_, hslot.words.tail⟩
    by_contra hge
    have hlo := hslot.lo_le
    have hnil := hslot.words.eq_nil (by omega)
    obtain ⟨he, rfl⟩ := hep
    rw [h.emit_eq] at he
    simp [(List.append_eq_nil_iff.mp hnil).1] at he
  · exact ⟨hslot.lo_le, hslot.words⟩

/-- A beat of request `k` arrives. -/
lemma SlotInv.step_arrival (hc : c.Wide512) (hanswers : x.Answers mem i)
    (h : RdInv mem address length x g) {k : ℕ}
    (hown : g.Owns c k (rxCplTlpHdrTag i.rxCplTlpHdr)) (ha : x.engine.cplAccept i = true) :
    SlotInv mem address length (x.step i) (g.next x i) k := by
  obtain ⟨hreq, hlt, hdata⟩ := h.accepted_slot hc hanswers ha hown
  obtain ⟨hle, hcar⟩ := h.carries_emit (i := i) hown.1 hown.2.1
  have hslot := h.data.slot k hown.1 hown.2.1
  have hwords := h.arrivedWords_next (i := i) hown.1 hown.2.1
  have howed := h.owed_next (i := i) hc hown.1 hown.2.1
  have harr : (g.next x i).arrived k = g.arrived k + 1 := by
    simp only [RdProgress.next, if_pos (And.intro ha hown)]
  have hkr : k ≠ g.requested := by omega
  rw [h.stores_eq hanswers, ha, decide_eq_true hown.2.2, Bool.and_self, if_pos rfl] at hwords
  rw [if_pos ⟨ha, hown.2.2⟩, if_neg (fun hcon => hkr hcon.2), List.append_nil,
    (hslot.owed hreq).2, tail_range'_map] at howed
  refine ⟨by omega, ?_, fun _ => ⟨by omega, ?_⟩, fun hge => ?_⟩
  · rw [harr]
    simp only [RdSystem.step]
    rw [hwords]
    exact hcar.snoc hle hdata
  · rw [harr]
    simp only [RdSystem.step, howed]
    congr 2
  · simp only [RdProgress.next] at hge
    omega

/-- No beat of request `k` arrives; the request itself may be accepted. -/
lemma SlotInv.step_no_arrival (hc : c.Wide512) (hanswers : x.Answers mem i)
    (h : RdInv mem address length x g) {k : ℕ} (hk : g.popped ≤ k)
    (hkm : k < g.popped + 2 ^ c.pcieTagWidth)
    (hno : ¬(x.engine.cplAccept i = true ∧
      k % 2 ^ c.pcieTagWidth = rxCplTlpHdrTag i.rxCplTlpHdr)) :
    SlotInv mem address length (x.step i) (g.next x i) k := by
  obtain ⟨hle, hcar⟩ := h.carries_emit (i := i) hk hkm
  have hslot := h.data.slot k hk hkm
  have hwords := h.arrivedWords_next (i := i) hk hkm
  have howed := h.owed_next (i := i) hc hk hkm
  have harr : (g.next x i).arrived k = g.arrived k := by
    simp only [RdProgress.next]
    rw [if_neg (fun hcon => hno ⟨hcon.1, hcon.2.2.2⟩)]
  have hnone : (x.engine.cplAccept i &&
      decide (k % 2 ^ c.pcieTagWidth = rxCplTlpHdrTag i.rxCplTlpHdr)) = false := by
    simpa using hno
  rw [h.stores_eq hanswers, hnone, if_neg Bool.false_ne_true, List.append_nil] at hwords
  rw [if_neg hno] at howed
  refine ⟨by omega, ?_, fun hlt => ?_, fun hge => ?_⟩
  · rw [harr]
    simp only [RdSystem.step]
    rw [hwords]
    exact hcar
  · rw [harr]
    simp only [RdSystem.step, howed]
    by_cases hreq : k < g.requested
    · have hkr : k ≠ g.requested := by omega
      rw [if_neg (fun hcon => hkr hcon.2), List.append_nil]
      exact hslot.owed hreq
    · have hacc : x.engine.req.accept i = true := by
        by_contra hne
        simp only [RdProgress.next, Bool.not_eq_true _ ▸ hne, Bool.toNat_false] at hlt
        omega
      simp only [RdProgress.next, hacc, Bool.toNat_true] at hlt
      have hkr : k = g.requested := by omega
      have h8 := h.data.arrived k (by omega)
      rw [hslot.none (by omega), if_pos ⟨hacc, hkr⟩, List.nil_append, h8]
      have hv := valid_of_accept hacc
      have hcount := (h.req.start (h.req.state_start (.inl hv))).1
      rw [hc.reqCount] at hcount
      unfold endBeat
      exact ⟨by omega, rfl⟩
  · simp only [RdSystem.step, howed]
    simp only [RdProgress.next] at hge
    rw [hslot.none (by omega), List.nil_append, if_neg]
    rintro ⟨hacc, hkr⟩
    rw [hacc, Bool.toNat_true] at hge
    omega

lemma SlotInv.step_released (hc : c.Wide512) (hanswers : x.Answers mem i)
    (h : RdInv mem address length x g) (hrd : x.engine.tag.opTagFifoRd = true) :
    SlotInv mem address length (x.step i) (g.next x i) (g.popped + 2 ^ c.pcieTagWidth) := by
  have hM := tagCount_pos c
  have hkm : g.popped < g.popped + 2 ^ c.pcieTagWidth := by omega
  obtain ⟨hlt, hend, -⟩ := h.tag.release hrd
  have hslot := h.currentSlot
  obtain ⟨harrle, howed⟩ := hslot.owed hlt
  have hlo := hslot.lo_le
  have hnil := hslot.words.eq_nil (by omega)
  rw [Nat.sub_eq_zero_of_le (by omega)] at howed
  have hnoemit := h.not_emit_of_release hrd
  have hno : ¬(x.engine.cplAccept i = true ∧
      g.popped % 2 ^ c.pcieTagWidth = rxCplTlpHdrTag i.rxCplTlpHdr) := by
    rintro ⟨ha, htag⟩
    exact hanswers.owed_ne_nil ha (htag ▸ howed)
  have hnone : (x.engine.cplAccept i &&
      decide (g.popped % 2 ^ c.pcieTagWidth = rxCplTlpHdrTag i.rxCplTlpHdr)) = false := by
    simpa using hno
  have hwords := h.arrivedWords_next (i := i) le_rfl hkm
  rw [h.stores_eq hanswers, hnone, hnoemit, hnil] at hwords
  have howed' := h.owed_next (i := i) hc le_rfl hkm
  have hpr : g.popped ≠ g.requested := by omega
  rw [if_neg hno, howed, if_neg (fun hcon => hpr hcon.2)] at howed'
  have halloc := h.allocated_le
  have hreq : (g.next x i).requested ≤ g.popped + 2 ^ c.pcieTagWidth := by
    simp only [RdProgress.next]
    cases hacc : x.engine.req.accept i with
    | false =>
      rw [Bool.toNat_false]
      unfold RdState.allocated at halloc
      omega
    | true =>
      have := h.requested_lt (valid_of_accept hacc)
      rw [Bool.toNat_true]
      omega
  have harr : (g.next x i).arrived (g.popped + 2 ^ c.pcieTagWidth) =
      8 * (g.popped + 2 ^ c.pcieTagWidth) := by
    simp only [RdProgress.next]
    rw [if_neg (fun hcon => absurd hcon.2.2.1 (lt_irrefl _))]
    apply h.data.arrived
    unfold RdState.allocated at halloc
    omega
  have hendle := endBeat_le length g.popped
  have hmax : max (8 * (g.popped + 2 ^ c.pcieTagWidth)) (g.next x i).emitted =
      8 * (g.popped + 2 ^ c.pcieTagWidth) := by
    simp only [RdProgress.next, hnoemit, Bool.toNat_false]
    omega
  refine ⟨by omega, ?_, fun hcon => by omega, fun _ => ?_⟩
  · rw [hmax, harr, Nat.add_mod_right]
    simp only [RdSystem.step]
    rw [hwords]
    exact Carries.nil _
  · rw [Nat.add_mod_right]
    simp only [RdSystem.step]
    rw [howed']
    rfl

theorem DataInv.step (hc : c.Wide512) (hanswers : x.Answers mem i)
    (h : RdInv mem address length x g) :
    DataInv mem address length (x.step i) (g.next x i) := by
  have hM := tagCount_pos c
  refine ⟨fun k hk hkm => ?_, fun k hk => ?_, fun tag htag => ?_⟩
  · by_cases hwin : g.popped ≤ k ∧ k < g.popped + 2 ^ c.pcieTagWidth
    · by_cases ha : x.engine.cplAccept i = true ∧
          k % 2 ^ c.pcieTagWidth = rxCplTlpHdrTag i.rxCplTlpHdr
      · exact SlotInv.step_arrival hc hanswers h ⟨hwin.1, hwin.2, ha.2⟩ ha.1
      · exact SlotInv.step_no_arrival hc hanswers h hwin.1 hwin.2 ha
    · cases hrd : x.engine.tag.opTagFifoRd with
      | false =>
        simp only [RdProgress.next, hrd, Bool.toNat_false] at hk hkm
        omega
      | true =>
        simp only [RdProgress.next, hrd, Bool.toNat_true] at hk hkm
        have hke : k = g.popped + 2 ^ c.pcieTagWidth := by omega
        rw [hke]
        exact SlotInv.step_released hc hanswers h hrd
  · simp only [RdProgress.next] at hk ⊢
    rw [if_neg]
    · exact h.data.arrived k (by omega)
    · rintro ⟨ha, hown⟩
      have := (h.accepted_slot hc hanswers ha hown).1
      omega
  · simp only [RdSystem.step, RdSystem.owedNext, h.data.owed tag htag, List.tail_nil, ite_self,
      List.nil_append]
    rw [if_neg]
    rintro ⟨hacc, heq⟩
    rw [(h.req.valid (valid_of_accept hacc)).2.2] at heq
    have := Nat.mod_lt g.requested hM
    omega

/-! ### The receive FSM -/

lemma RdInv.owedTotal_next (hc : c.Wide512) (hanswers : x.Answers mem i)
    (h : RdInv mem address length x g) :
    owedTotal c (x.owedNext i) + (x.engine.cplAccept i).toNat = owedTotal c x.owed +
      if x.engine.req.accept i then endBeat length g.requested - 8 * g.requested else 0 := by
  have hpoint : ∀ tag ∈ Finset.range (2 ^ c.pcieTagWidth),
      (x.owedNext i tag).length +
        (if tag = rxCplTlpHdrTag i.rxCplTlpHdr then (x.engine.cplAccept i).toNat else 0) =
      (x.owed tag).length + if tag = x.engine.req.txRdReqTlpHdrReg.tag then
        (if x.engine.req.accept i then endBeat length g.requested - 8 * g.requested else 0)
        else 0 := by
    intro tag _
    have hnew : (if x.engine.req.accept i ∧ tag = x.engine.req.txRdReqTlpHdrReg.tag then
        x.engine.req.txRdReqTlpHdrReg.cplBeats c.busBytes else []).length =
        if tag = x.engine.req.txRdReqTlpHdrReg.tag then
          (if x.engine.req.accept i then endBeat length g.requested - 8 * g.requested else 0)
          else 0 := by
      by_cases hacc : x.engine.req.accept i = true
      · have hv := valid_of_accept hacc
        have hlt := (h.req.start (h.req.state_start (.inl hv))).1
        by_cases htag : tag = x.engine.req.txRdReqTlpHdrReg.tag
        · rw [if_pos ⟨hacc, htag⟩, if_pos htag, if_pos hacc,
            cplBeats_eq hc hlt (h.req.valid hv).2.1, List.length_map, List.length_range']
        · simp [htag]
      · simp [hacc]
    rw [RdSystem.owedNext, List.length_append, hnew]
    by_cases ha : x.engine.cplAccept i = true ∧ tag = rxCplTlpHdrTag i.rxCplTlpHdr
    · have hpos := List.length_pos_iff.mpr (hanswers.owed_ne_nil ha.1)
      rw [if_pos ha, if_pos ha.2, ha.1, Bool.toNat_true, List.length_tail, ha.2]
      omega
    · have hzero : (if tag = rxCplTlpHdrTag i.rxCplTlpHdr then (x.engine.cplAccept i).toNat else 0) =
          0 := by
        split_ifs with htag
        · have : x.engine.cplAccept i = false := by simpa [htag] using ha
          rw [this, Bool.toNat_false]
        · rfl
      rw [if_neg ha, hzero, Nat.add_zero]
  have hsum := Finset.sum_congr rfl hpoint
  simp only [Finset.sum_add_distrib, Finset.sum_ite_eq', Finset.mem_range] at hsum
  unfold owedTotal
  have hcpl : (if rxCplTlpHdrTag i.rxCplTlpHdr < 2 ^ c.pcieTagWidth then
      (x.engine.cplAccept i).toNat else 0) = (x.engine.cplAccept i).toNat := by
    by_cases ha : x.engine.cplAccept i = true
    · rw [if_pos (h.accepted_tag_lt hanswers ha)]
    · simp [ha]
  have hreq : (if x.engine.req.txRdReqTlpHdrReg.tag < 2 ^ c.pcieTagWidth then
      (if x.engine.req.accept i then endBeat length g.requested - 8 * g.requested else 0) else 0) =
      if x.engine.req.accept i then endBeat length g.requested - 8 * g.requested else 0 := by
    by_cases hacc : x.engine.req.accept i = true
    · have htag := (h.req.valid (valid_of_accept hacc)).2.2
      have := Nat.mod_lt g.requested (tagCount_pos c)
      rw [if_pos (by omega)]
    · simp [hacc]
  rw [hcpl, hreq] at hsum
  exact hsum

theorem RecvInv.step (hc : c.Wide512) (hpos : 0 < length) (hlen : length < 2 ^ 32)
    (hstart : i.descTxRdReqStart = false) (hanswers : x.Answers mem i)
    (h : RdInv mem address length x g) : RecvInv length (x.step i) (g.next x i) := by
  have htotal := h.owedTotal_next hc hanswers
  have hinv := h.recv.total
  have hnotstart : (x.step i).engine.req.descTxRdReqStartReg = false := startReg_falls fun _ => hstart
  have hN : beatCycles c (reqNext c x.engine.req i x.engine.tag.opTagFifoWe
      x.engine.tag.opTagFifoWrTag).descTxRdReqLengthReg = (length + 63) / 64 := by
    rw [lengthReg_stays (take_eq_false hstart), h.req.lengthReg, beatCycles_eq hlen, hc.beatCount]
  have htotal' : (g.next x i).received + owedTotal c (x.step i).owed =
      min (8 * (g.next x i).requested) ((length + 63) / 64) := by
    simp only [RdProgress.next, RdSystem.step]
    cases hacc : x.engine.req.accept i with
    | false =>
      simp only [hacc, Bool.false_eq_true, if_false] at htotal
      rw [Bool.toNat_false]
      omega
    | true =>
      have hlt := (h.req.start (h.req.state_start (.inl (valid_of_accept hacc)))).1
      rw [hc.reqCount] at hlt
      simp only [hacc, if_true] at htotal
      rw [Bool.toNat_true]
      unfold endBeat at htotal
      omega
  refine ⟨htotal', fun hfirst => ?_, fun hidle _ => ?_, fun hrun => ⟨hnotstart, ?_⟩⟩
  · rw [hnotstart] at hfirst
    exact absurd hfirst Bool.false_ne_true
  · simp only [RdSystem.step, rdStep, recvStep] at hidle
    cases hr : x.engine.recv.recvStateReg with
    | idle =>
      cases hs : x.engine.req.descTxRdReqStartReg with
      | true =>
        have hs' : (reqNext c x.engine.req i x.engine.tag.opTagFifoWe
            x.engine.tag.opTagFifoWrTag).descTxRdReqStartReg = false := hnotstart
        simp [hr, recvStart, hs, hs'] at hidle
      | false =>
        have hrec := h.recv.idle hr hs
        have hna : x.engine.cplAccept i = false := by
          by_contra ha
          have := h.recv_start hanswers (by simpa using ha)
          rw [hr] at this
          cases this
        simpa [RdProgress.next, hna] using hrec
    | start =>
      obtain ⟨-, htr, hop, hlt⟩ := h.recv.start hr
      simp only [hr] at hidle
      cases hl : x.engine.cplLast i with
      | false => simp [hl] at hidle
      | true =>
        simp only [RdState.cplLast, RdState.cplOpCycleNext, hr, htr, hop, Bool.and_eq_true,
          decide_eq_true_eq] at hl
        obtain ⟨⟨-, ha⟩, heq⟩ := hl
        simp only [ha, if_true] at heq
        simp only [RdProgress.next, ha, Bool.toNat_true]
        omega
  · simp only [RdSystem.step, rdStep, recvStep] at hrun ⊢
    cases hr : x.engine.recv.recvStateReg with
    | idle =>
      have hna : x.engine.cplAccept i = false := by
        by_contra ha
        have := h.recv_start hanswers (by simpa using ha)
        rw [hr] at this
        cases this
      cases hrs : recvStart x.engine (reqNext c x.engine.req i x.engine.tag.opTagFifoWe
          x.engine.tag.opTagFifoWrTag) with
      | false => simp [hr, hrs] at hrun
      | true =>
        have hs : x.engine.req.descTxRdReqStartReg = true := by
          simp only [recvStart, Bool.and_eq_true] at hrs
          exact hrs.2.1
        have hzero := (h.recv.first hs).2.2.2
        simp only [if_true, hN, RdState.cplOpCycleNext, hr, RdProgress.next, hna, Bool.toNat_false,
          true_and]
        omega
    | start =>
      obtain ⟨-, htr, hop, hlt⟩ := h.recv.start hr
      simp only [hr] at hrun
      cases hl : x.engine.cplLast i with
      | true => simp [hl] at hrun
      | false =>
        simp only [RdState.cplOpCycleNext, hr, htr, hop, RdProgress.next]
        simp only [RdState.cplLast, RdState.cplOpCycleNext, hr, htr, hop] at hl
        cases ha : x.engine.cplAccept i with
        | false => simp [hlt]
        | true =>
          simp only [ha, if_true, BEq.rfl, Bool.true_and, decide_eq_false_iff_not] at hl
          rw [Bool.toNat_true]
          simp only [if_true, true_and]
          omega

/-! ### The output side -/

lemma RdInv.outputCycle_next (hlen : length < 2 ^ 32) (h : RdInv mem address length x g)
    (htr : x.engine.tr.trStateReg = .start) (lengthNext : ℕ) :
    x.engine.outputCycleNext i lengthNext = (length + 63) / 64 - (g.next x i).emitted := by
  obtain ⟨hlt, hout⟩ := h.out.start htr
  simp only [RdState.outputCycleNext, htr, RdProgress.next, hout]
  cases x.engine.emit with
  | false => rfl
  | true =>
    simp only [if_true, Bool.toNat_true]
    omega

lemma axisTkeepInit_eq (hc : c.Wide512) (j : Fin c.busBytes) :
    axisTkeepInit c length j = decide (length % 64 = 0 ∨ j.val < length % 64) := by
  have hoff : length % 2 ^ c.offsetWidth = length % 64 := by
    rw [hc.offsetWidth]
    rfl
  unfold axisTkeepInit
  rw [hoff]
  by_cases hz : length % 64 = 0
  · simp [hz]
  · rw [if_neg hz, Nat.shiftLeft_eq, Nat.one_mul, Nat.testBit_two_pow_sub_one]
    simp [hz]

lemma RdInv.axisInit_ok (hc : c.Wide512) (hlen : length < 2 ^ 32)
    (h : RdInv mem address length x g) (he : x.engine.emit = true) (lengthNext : ℕ) :
    BeatOk mem address length g.emitted (axisInit x.engine i lengthNext) := by
  have hem := (h.emitting_of_emit he).2
  have hge := hem.le_emitted
  have hout := h.outputCycle_next (i := i) hlen hem.trState lengthNext
  have hlt := (h.out.start hem.trState).1
  simp only [RdProgress.next, he, Bool.toNat_true] at hout
  refine ⟨?_, fun j => ?_, ?_⟩
  · have hcar := h.currentSlot.words
    rw [Nat.max_eq_right hge, RdState.arrivedWords] at hcar
    simp only [axisInit, h.tag.rdptr]
    rw [h.emit_eq, Bool.and_eq_true] at he
    cases hw : (x.engine.cpldDataFifo (g.popped % 2 ^ c.pcieTagWidth)).words with
    | nil => simp [hw] at he
    | cons w ws =>
      rw [hw] at hcar
      exact hcar.head (by simp)
  · have hj : j.val < 64 := hc.busBytes ▸ j.isLt
    simp only [axisInit, hout, h.req.lengthReg]
    split_ifs
    · rw [axisTkeepInit_eq hc]
      exact decide_eq_decide.mpr (by omega)
    · symm
      rw [decide_eq_true_eq]
      omega
  · simp only [axisInit, hout, Bool.beq_eq_decide_eq]
    exact decide_eq_decide.mpr (by omega)

lemma tr_stays_idle {s : RdState c} (hstart : i.descTxRdReqStart = false)
    (htr : s.tr.trStateReg = .idle) : (rdStep s i).tr.trStateReg = .idle := by
  simp [rdStep, trStep, trStateNext, htr, hstart]

/-- The beat on the input of the output FIFO. -/
def RdState.newBeat (s : RdState c) (i : RdInput c) : AxisBeat c.busBytes :=
  axisInit s i (reqNext c s.req i s.tag.opTagFifoWe s.tag.opTagFifoWrTag).descTxRdReqLengthReg

def RdState.queueNext (s : RdState c) (i : RdInput c) (q : List (AxisBeat c.busBytes)) :
    List (AxisBeat c.busBytes) :=
  (if s.out.load i.mAxisTlpTready then q.tail else q) ++ if s.emit then [s.newBeat i] else []

lemma queueNext_length_le {s : RdState c} (q : List (AxisBeat c.busBytes)) :
    (s.queueNext i q).length ≤ q.length + s.emit.toNat :=
  s.out.queueNext_length_le s.emit (s.newBeat i) i.mAxisTlpTready q

/-- The half-full flag stops the output FSM in time: the output FIFO that holds `q` has room for every beat
that is on its way. -/
structure OutRoom (s : RdState c) (q : List (AxisBeat c.busBytes)) : Prop where
  stores : s.out.Stores outputFifoAddrWidthRd q
  length_le : q.length ≤ 34
  not_half : s.out.outFifoHalfFullReg = false → q.length ≤ 32
  rdEn : ∀ tag, s.tr.cpldDataFifoRdEnReg tag = true → q.length ≤ 33

lemma rdEn_of_emit {s : RdState c} (he : s.emit = true) :
    s.tr.trStateReg = .start ∧ s.tr.cpldDataFifoRdEnReg s.tag.opTagFifoRdptr = true ∧
      (s.cpldDataFifo s.tag.opTagFifoRdptr).words ≠ [] := by
  simpa [RdState.emit, and_assoc] using he

theorem OutRoom.step {s : RdState c} {q : List (AxisBeat c.busBytes)} (h : OutRoom s q) :
    OutRoom (rdStep s i) (s.queueNext i q) := by
  have hle := queueNext_length_le (s := s) (i := i) q
  have hemit : s.emit = true → q.length ≤ 33 := fun he => h.rdEn _ (rdEn_of_emit he).2.1
  have hroom : s.emit = true → q.length < 2 ^ outputFifoAddrWidthRd := by
    intro he
    have := hemit he
    simp only [outputFifoAddrWidthRd]
    omega
  have hone := Bool.toNat_le s.emit
  have hhalf := OutFifo.step_halfFull h.stores s.emit (s.newBeat i) i.mAxisTlpTready
  refine ⟨OutFifo.step_stores h.stores s.emit hroom _ i.mAxisTlpTready, ?_, fun hh => ?_, fun tag ht => ?_⟩
  · have := h.length_le
    cases he : s.emit with
    | false =>
      rw [he, Bool.toNat_false] at hle
      omega
    | true =>
      have := hemit he
      omega
  · have hh' : (s.out.step outputFifoAddrWidthRd s.emit (s.newBeat i)
        i.mAxisTlpTready).outFifoHalfFullReg = false := hh
    rw [hhalf, decide_eq_false_iff_not] at hh'
    simp only [outputFifoAddrWidthRd] at hh'
    omega
  · have := h.not_half (rdEnNext_words ht).2.1
    omega

lemma delivered_next {q : List (AxisBeat c.busBytes)}
    (hq : x.engine.out.Stores outputFifoAddrWidthRd q) :
    (x.step i).delivered ++ (x.step i).engine.out.pending (x.engine.queueNext i q) =
      (x.delivered ++ x.engine.out.pending q) ++
        if x.engine.emit then [x.engine.newBeat i] else [] := by
  have hpend := OutFifo.step_pending hq x.engine.emit (x.engine.newBeat i) i.mAxisTlpTready
  simp only [RdSystem.step, rdStep, RdState.queueNext]
  rw [List.append_assoc, List.append_assoc, ← hpend]
  rfl

lemma OutQueue.step (hc : c.Wide512) (hlen : length < 2 ^ 32)
    (hstart : i.descTxRdReqStart = false) (h : RdInv mem address length x g)
    {q : List (AxisBeat c.busBytes)} (hq : OutQueue mem address length x g q) :
    OutQueue mem address length (x.step i) (g.next x i) (x.engine.queueNext i q) := by
  have hnext := delivered_next (i := i) hq.stores
  obtain ⟨hstores, hlen', hhalf, hen⟩ := OutRoom.step (i := i)
    ⟨hq.stores, hq.length_le, hq.not_half, hq.rdEn⟩
  refine ⟨hstores, hlen', hhalf, hen, fun hrd => ?_, ?_, ?_⟩
  · have he := ((h.release_next hstart).mp hrd).1
    simp [RdState.queueNext, he]
  · rw [hnext, List.length_append, hq.count]
    simp only [RdProgress.next]
    cases x.engine.emit <;> rfl
  · rw [hnext]
    cases he : x.engine.emit with
    | false => simpa using hq.beats
    | true =>
      apply hq.beats.snoc
      rw [hq.count]
      exact h.axisInit_ok hc hlen he _

theorem OutInv.step (hc : c.Wide512) (hlen : length < 2 ^ 32)
    (hstart : i.descTxRdReqStart = false) (h : RdInv mem address length x g) :
    OutInv mem address length (x.step i) (g.next x i) := by
  refine ⟨fun htr' => ?_, fun htr' => ?_, ?_⟩
  · cases htr : x.engine.tr.trStateReg with
    | idle =>
      rw [RdSystem.step, tr_stays_idle hstart htr] at htr'
      cases htr'
    | start =>
      have hout := fun l => h.outputCycle_next (i := i) hlen htr l
      simp only [RdSystem.step, rdStep, trStep, trStateNext, htr, hout] at htr' ⊢
      split_ifs at htr'
      exact ⟨by omega, trivial⟩
  · cases htr : x.engine.tr.trStateReg with
    | idle =>
      have he : x.engine.emit = false := by
        by_contra ht
        have := (h.emitting_of_emit (by simpa using ht)).2.trState
        rw [htr] at this
        cases this
      simpa [RdProgress.next, he] using h.out.idle htr
    | start =>
      have hout := fun l => h.outputCycle_next (i := i) hlen htr l
      have hlt := (h.out.start htr).1
      simp only [RdSystem.step, rdStep, trStep, trStateNext, htr, hout] at htr'
      split_ifs at htr' with hz
      have hone := Bool.toNat_le x.engine.emit
      simp only [RdProgress.next] at hz ⊢
      omega
  · obtain ⟨q, hq⟩ := h.out.queue
    exact ⟨_, hq.step hc hlen hstart h⟩

/-- One clock edge of the running descriptor keeps the whole invariant. -/
theorem RdInv.step (hc : c.Wide512) (haddr : address % 4 = 0) (hpos : 0 < length)
    (hlen : length < 2 ^ 32) (hstart : i.descTxRdReqStart = false) (hlegal : x.Legal mem i)
    (h : RdInv mem address length x g) : RdInv mem address length (x.step i) (g.next x i) where
  req := h.req.step hc haddr hlen hstart hlegal.ready
  tag := TagInv.step hc hlen hstart hlegal.ready h
  data := DataInv.step hc hlegal.answers h
  recv := RecvInv.step hc hpos hlen hstart hlegal.answers h
  out := OutInv.step hc hlen hstart h

end Current

end FpgaPcie
