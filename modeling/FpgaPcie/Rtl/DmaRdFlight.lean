import FpgaPcie.Rtl.DmaRdTrack

/-!
# A descriptor in flight

A clock edge in which no descriptor is taken advances the counts and keeps what they determine.
-/

namespace FpgaPcie

variable {c : RdConfig}

/-! ### Clock edges -/

section Step

variable {x : RdTrack c} {i : RdInput c} {g : Flow}

lemma Flight.rdEn_next (h : Flight x g) {tag : ℕ}
    (hen : (rdStep x.engine i).tr.cpldDataFifoRdEnReg tag = true) :
    tag = g.popped % 2 ^ c.pcieTagWidth ∧ g.popped < g.requested ∧
      x.engine.tag.opTagFifoRd = false ∧ x.engine.req.descTxRdReqLengthReg ≠ 0 := by
  obtain ⟨htag, -, hne⟩ := rdEnNext_words hen
  rw [h.tag.rdptr] at htag hne
  have hne' : x.engine.arrivedWords (g.popped % 2 ^ c.pcieTagWidth) ≠ [] := fun hnil =>
    hne (List.append_eq_nil_iff.mp hnil).1
  obtain ⟨hlt, hend⟩ := h.emitting le_rfl (lt_add_tagCount c _)
    (h.words_unpopped hne')
  refine ⟨htag, hlt, ?_, fun hz => ?_⟩
  · by_contra hrd
    have := (h.tag.release (by simpa using hrd)).2.1
    omega
  · have htr : x.engine.tr.trStateReg = .start := by
      cases htr : x.engine.tr.trStateReg with
      | start => rfl
      | idle => simp [rdStep, trStep, rdEnNext, htr] at hen
    have hfirst := (h.out.start htr).2
    rw [if_pos hz] at hfirst
    have := (h.recv.first hfirst.1).2.2.2
    omega

theorem TagFlight.step (hc : c.Wide512) (ht : x.engine.req.take i = false)
    (hready : x.engine.req.txRdReqTlpValidReg = true → i.txRdReqTlpReady = true)
    (h : Flight x g) : TagFlight (rdStep x.engine i) (g.next x.engine i) := by
  have halloc : (rdStep x.engine i).allocated (g.next x.engine i).requested =
      x.engine.allocated g.requested + x.engine.tag.opTagFifoWe.toNat :=
    h.req.allocated_next ht hready
  have hspan := span_stays ht
  have hpop := h.tag.popped_le
  have hfifo := h.tag.fifo
  have hbound := x.engine.tag.opTagFifo.length_le
  have hle : g.requested ≤ x.engine.allocated g.requested := Nat.le_add_right _ _
  refine ⟨?_, ?_, fun hw => ?_, ?_, fun k hk hkm => ?_, fun tag hen => ?_, fun hrd => ?_,
    fun hrd hlt => ?_, fun hrd hlt => ?_⟩
  · cases hrd : x.engine.tag.opTagFifoRd with
    | false =>
      simp only [Flow.next, hrd, Bool.toNat_false]
      omega
    | true =>
      have := (h.tag.release hrd).1
      simp only [Flow.next, hrd, Bool.toNat_true]
      omega
  · rw [halloc]
    exact tagFifo_step hfifo hpop hle h.tag.room fun hrd => (h.tag.release hrd).1
  · rw [halloc]
    simp only [rdStep, tagStep] at hw
    cases hwe : x.engine.tag.opTagFifoWe with
    | true => simp [hwe] at hw
    | false =>
      simp only [hwe, Bool.false_eq_true, if_false, Bool.and_eq_true, decide_eq_true_eq] at hw
      simp only [Flow.next, Bool.toNat_false]
      omega
  · rw [opTagFifoRdptr_step ht, h.tag.rdptr]
    cases hrd : x.engine.tag.opTagFifoRd <;> simp [Flow.next, hrd]
  · rw [halloc, hspan]
    apply table_step (b := fun k => endBeat x.engine.span k - 8 * k) h.tag.rdptr (by omega) (by omega)
      (fun hw => ?_) h.tag.table hk hkm
    have hwr := (h.req.start (h.req.state_start (.inr hw))).2.2.2
    have hv := h.req.not_valid_of_we hw
    have halloc' : x.engine.allocated g.requested = g.requested := by simp [RdState.allocated, hv]
    refine ⟨h.tag.room hw, hwr, ?_⟩
    rw [halloc']
    exact h.req.byteCycle_next hc hw
  · obtain ⟨htag, hlt, hrd, hz⟩ := h.rdEn_next hen
    have hlen : (rdStep x.engine i).req.descTxRdReqLengthReg = x.engine.req.descTxRdReqLengthReg :=
      lengthReg_stays ht
    rw [hlen]
    simp only [Flow.next, hrd, Bool.toNat_false, Nat.add_zero]
    exact ⟨htag, by omega, hz⟩
  · obtain ⟨he, hend⟩ := (h.release_next ht).mp hrd
    obtain ⟨hlt, -, hrd'⟩ := h.of_emit he
    have hN := Nat.lt_of_lt_of_le hlt h.req.requested_le
    have htable : x.engine.tag.tagTableInfo (g.popped % 2 ^ c.pcieTagWidth) =
        endBeat x.engine.span g.popped - 8 * g.popped := by
      rw [h.table_current, if_pos (by omega)]
    rw [hspan, h.cycleReg_next, h.cycleNext hrd' hN, htable]
    simp only [Flow.next, hrd', he, Bool.toNat_false, Bool.toNat_true, Nat.add_zero]
    exact ⟨by omega, hend, by rw [hend, if_pos rfl]⟩
  · have hmore : ¬(x.engine.emit = true ∧ g.emitted + 1 = endBeat x.engine.span g.popped) := by
      rw [← h.release_next ht, hrd]
      exact Bool.false_ne_true
    rw [hspan] at hlt ⊢
    rw [h.cycleReg_next]
    cases hold : x.engine.tag.opTagFifoRd with
    | true =>
      obtain ⟨-, hend, hcyc⟩ := h.tag.release hold
      have he := h.not_emit_of_release hold
      have hnext := cycleNext_zero he hcyc
      simp only [Flow.next, hold, he, Bool.toNat_true, Bool.toNat_false, Nat.add_zero] at hlt ⊢
      unfold endBeat at hend ⊢
      rw [hnext, ite_self]
      omega
    | false =>
      simp only [Flow.next, hold, Bool.toNat_false, Nat.add_zero] at hlt ⊢
      obtain ⟨hge, hend, -⟩ := h.tag.current hold hlt
      rw [h.cycleNext hold hlt, h.table_current]
      cases he : x.engine.emit with
      | true =>
        simp only [he, true_and] at hmore
        rw [Bool.toNat_true]
        refine ⟨by omega, by omega, ?_⟩
        split_ifs <;> omega
      | false =>
        rw [Bool.toNat_false]
        refine ⟨by omega, by omega, ?_⟩
        split_ifs <;> omega
  · rw [hspan] at hlt ⊢
    cases hold : x.engine.tag.opTagFifoRd with
    | true =>
      have hend := (h.tag.release hold).2.1
      have he := h.not_emit_of_release hold
      simp only [Flow.next, hold, he, Bool.toNat_true, Bool.toNat_false, Nat.add_zero] at hlt ⊢
      unfold endBeat at hend
      omega
    | false =>
      simp only [Flow.next, hold, Bool.toNat_false, Nat.add_zero] at hlt ⊢
      have he : x.engine.emit = false := by
        by_contra hem
        have := (h.of_emit (by simpa using hem)).1
        have := h.req.requested_le
        omega
      rw [he, Bool.toNat_false, Nat.add_zero]
      exact h.tag.finished hold hlt

/-! ### The data FIFOs -/

lemma arrivedWords_length_step (s : RdState c) (i : RdInput c) (tag : ℕ)
    (hroom : (s.arrivedWords tag).length ≤ 16) :
    ((rdStep s i).arrivedWords tag).length + (s.pops tag).toNat =
      (s.arrivedWords tag).length + (s.stores i tag).toNat := by
  unfold RdState.arrivedWords at hroom ⊢
  rw [List.length_append] at hroom
  have hnew : (if (rdStep s i).recv.cpldDataFifoWrEnReg tag then
      [(rdStep s i).recv.cpldDataFifoDinReg tag] else []).length = (s.stores i tag).toNat := by
    cases hst : s.stores i tag <;> simp [rdStep, recvStep, hst]
  rw [List.length_append, hnew, List.length_append]
  simp only [rdStep, cpldFifoStep]
  rw [BoundedQueue.clock_words _ _ _ hroom, List.length_append, RdState.pops]
  cases hw : (s.cpldDataFifo tag).words with
  | nil => cases s.tr.cpldDataFifoRdEnReg tag <;> simp
  | cons w ws =>
    cases s.tr.cpldDataFifoRdEnReg tag <;> simp
    omega

lemma exists_slot (c : RdConfig) (p : ℕ) {tag : ℕ} (ht : tag < 2 ^ c.pcieTagWidth) :
    ∃ k, p ≤ k ∧ k < p + 2 ^ c.pcieTagWidth ∧ k % 2 ^ c.pcieTagWidth = tag := by
  have hM := tagCount_pos c
  have hp := Nat.mod_lt p hM
  have hdiv := Nat.mod_add_div p (2 ^ c.pcieTagWidth)
  rcases Nat.lt_or_ge tag (p % 2 ^ c.pcieTagWidth) with hlt | hge
  · refine ⟨2 ^ c.pcieTagWidth * (p / 2 ^ c.pcieTagWidth) + 2 ^ c.pcieTagWidth + tag, by omega, by omega, ?_⟩
    rw [Nat.add_assoc, Nat.mul_add_mod, Nat.add_mod_left, Nat.mod_eq_of_lt ht]
  · refine ⟨2 ^ c.pcieTagWidth * (p / 2 ^ c.pcieTagWidth) + tag, by omega, by omega, ?_⟩
    rw [Nat.mul_add_mod, Nat.mod_eq_of_lt ht]

lemma Flight.unpopped_le (h : Flight x g) {tag : ℕ} (ht : tag < 2 ^ c.pcieTagWidth) :
    x.unpopped tag ≤ 8 := by
  obtain ⟨k, hk, hkm, rfl⟩ := exists_slot c g.popped ht
  have hb := endBeat_le x.engine.span k
  rw [h.data.slot k hk hkm]
  split_ifs <;> omega

lemma Legal.tag_mem {x : RdTrack c} (hlegal : x.Legal i) (ha : x.engine.cplAccept i = true) :
    rxCplTlpHdrTag i.rxCplTlpHdr ∈ x.owed := by
  simp only [RdState.cplAccept, Bool.and_eq_true] at ha
  exact hlegal.answers ha.1

lemma Flight.recv_start (hlegal : x.Legal i) (h : Flight x g) (ha : x.engine.cplAccept i = true) :
    x.engine.recv.recvStateReg = .start := by
  have hmem := Legal.tag_mem hlegal ha
  have hpos := List.length_pos_of_mem hmem
  have htot := h.recv.total
  cases hr : x.engine.recv.recvStateReg with
  | start => rfl
  | idle =>
    cases hs : x.engine.req.descTxRdReqStartReg with
    | true =>
      have := (h.recv.first hs).2.2.2
      omega
    | false =>
      have := h.recv.idle hr hs
      omega

lemma Flight.stores_eq (hlegal : x.Legal i) (h : Flight x g) (tag : ℕ) :
    x.engine.stores i tag = (x.engine.cplAccept i && decide (tag = rxCplTlpHdrTag i.rxCplTlpHdr)) := by
  unfold RdState.stores
  by_cases ha : x.engine.cplAccept i = true
  · have hlt := h.data.owed_lt _ (Legal.tag_mem hlegal ha)
    rw [h.recv_start hlegal ha, ha, Nat.mod_eq_of_lt hlt]
    simp [Bool.beq_eq_decide_eq]
  · simp [ha]

lemma count_owedNext (hlegal : x.Legal i) (tag : ℕ) :
    (x.owedNext i).count tag +
      (x.engine.cplAccept i && decide (tag = rxCplTlpHdrTag i.rxCplTlpHdr)).toNat =
    x.owed.count tag + if x.engine.req.accept i ∧ tag = x.engine.req.txRdReqTlpHdrReg.tag then
      x.engine.req.txRdReqTlpHdrReg.dataBeats else 0 := by
  have hnew : (if x.engine.req.accept i then List.replicate x.engine.req.txRdReqTlpHdrReg.dataBeats
      x.engine.req.txRdReqTlpHdrReg.tag else []).count tag =
      if x.engine.req.accept i ∧ tag = x.engine.req.txRdReqTlpHdrReg.tag then
        x.engine.req.txRdReqTlpHdrReg.dataBeats else 0 := by
    cases x.engine.req.accept i with
    | false => simp
    | true =>
      by_cases htag : tag = x.engine.req.txRdReqTlpHdrReg.tag
      · simp [htag]
      · simp [List.count_replicate, htag, Ne.symm htag]
  rw [RdTrack.owedNext, List.count_append, hnew]
  by_cases ha : x.engine.cplAccept i = true
  · have hmem := Legal.tag_mem hlegal ha
    rw [ha, if_pos rfl]
    by_cases htag : tag = rxCplTlpHdrTag i.rxCplTlpHdr
    · subst htag
      have hpos := List.count_pos_iff.mpr hmem
      rw [List.count_erase_self]
      simp only [decide_true, Bool.and_self, Bool.toNat_true]
      omega
    · rw [List.count_erase_of_ne htag]
      simp [htag]
  · simp [ha]

lemma Flight.requested_lt (h : Flight x g) (hv : x.engine.req.txRdReqTlpValidReg = true) :
    g.requested < g.popped + 2 ^ c.pcieTagWidth := by
  have hle := h.allocated_le
  simp only [RdState.allocated, hv, Bool.toNat_true] at hle
  omega

lemma Flight.offered_tag (h : Flight x g) (hacc : x.engine.req.accept i = true) {k : ℕ}
    (hk : g.popped ≤ k) (hkm : k < g.popped + 2 ^ c.pcieTagWidth) :
    k % 2 ^ c.pcieTagWidth = x.engine.req.txRdReqTlpHdrReg.tag ↔ k = g.requested := by
  have hv := valid_of_accept hacc
  rw [(h.req.valid hv).2.1]
  constructor
  · exact owner_unique ⟨hk, hkm⟩ ⟨h.tag.popped_le, h.requested_lt hv⟩
  · rintro rfl
    rfl

lemma Flight.pops_eq (h : Flight x g) {k : ℕ} (hk : g.popped ≤ k)
    (hkm : k < g.popped + 2 ^ c.pcieTagWidth) :
    x.engine.pops (k % 2 ^ c.pcieTagWidth) = (x.engine.emit && decide (k = g.popped)) := by
  by_cases hkp : k = g.popped
  · subst hkp
    simp [h.emit_eq]
  · have hno : x.engine.pops (k % 2 ^ c.pcieTagWidth) = false := by
      by_contra hp
      exact hkp (owner_unique ⟨hk, hkm⟩ ⟨le_rfl, lt_add_tagCount c _⟩ (h.pops_rdptr (by simpa using hp)))
    simp [hno, hkp]

lemma Flight.held_next (hlegal : x.Legal i) (h : Flight x g) {tag : ℕ} (ht : tag < 2 ^ c.pcieTagWidth) :
    (x.owedNext i).count tag + ((rdStep x.engine i).arrivedWords tag).length = x.unpoppedNext i tag := by
  have hheld := h.data.held tag ht
  have hle := h.unpopped_le ht
  have hwords := arrivedWords_length_step x.engine i tag (by omega)
  have howed := count_owedNext hlegal tag
  rw [h.stores_eq hlegal] at hwords
  have hpop : (x.engine.pops tag).toNat ≤ (x.engine.arrivedWords tag).length := by
    cases hp : x.engine.pops tag with
    | false => exact Nat.zero_le _
    | true =>
      simp only [RdState.pops, Bool.and_eq_true, Bool.not_eq_true', List.isEmpty_eq_false_iff] at hp
      have hpos := List.length_pos_iff.mpr hp.2
      rw [RdState.arrivedWords, List.length_append, Bool.toNat_true]
      omega
  rw [RdTrack.unpoppedNext]
  omega

/-- The beats of request `k` that are left, over an acceptance and an emission at request `p`. -/
lemma left_step {k p n e all : ℕ} (acc em : Bool) (hk : p ≤ k) (hle : e ≤ 8 * n)
    (hem : em = true → p < n ∧ 8 * p ≤ e ∧ e < 8 * p + 8) :
    (if k < n then all - max (8 * k) e else 0) + (if acc = true ∧ k = n then all - 8 * k else 0) -
      (em && decide (k = p)).toNat =
    if k < n + acc.toNat then all - max (8 * k) (e + em.toNat) else 0 := by
  cases em with
  | false =>
    cases acc
    · simp
    · simp
      split_ifs <;> omega
  | true =>
    obtain ⟨hlt, hge, hend⟩ := hem rfl
    by_cases hkp : k = p
    · subst hkp
      cases acc <;> simp <;> split_ifs <;> omega
    · cases acc <;> simp [hkp] <;> split_ifs <;> omega

/-- The beats of request `k` that are left, when it keeps its tag. -/
lemma Flight.slot_next (h : Flight x g) {k : ℕ} (hk : g.popped ≤ k)
    (hkm : k < g.popped + 2 ^ c.pcieTagWidth) : x.unpoppedNext i (k % 2 ^ c.pcieTagWidth) =
      if k < (g.next x.engine i).requested then
        endBeat x.engine.span k - max (8 * k) (g.next x.engine i).emitted else 0 := by
  have hnew : (if x.engine.req.accept i = true ∧ k % 2 ^ c.pcieTagWidth =
      x.engine.req.txRdReqTlpHdrReg.tag then x.engine.req.txRdReqTlpHdrReg.dataBeats else 0) =
      if x.engine.req.accept i = true ∧ k = g.requested then endBeat x.engine.span k - 8 * k else 0 := by
    by_cases hacc : x.engine.req.accept i = true
    · simp only [hacc, true_and, h.offered_tag hacc hk hkm]
      split_ifs with hkr
      · rw [(h.req.valid (valid_of_accept hacc)).2.2, hkr]
      · rfl
    · simp [hacc]
  rw [RdTrack.unpoppedNext, hnew, h.pops_eq hk hkm, h.data.slot k hk hkm]
  apply left_step _ _ hk h.data.emitted_le
  intro he
  obtain ⟨hlt, hend, hrd⟩ := h.of_emit he
  have hge := (h.tag.current hrd (Nat.lt_of_lt_of_le hlt h.req.requested_le)).1
  have hb := endBeat_le x.engine.span g.popped
  exact ⟨hlt, hge, by omega⟩

lemma Flight.slot_released (h : Flight x g) (hrd : x.engine.tag.opTagFifoRd = true) :
    x.unpoppedNext i ((g.popped + 2 ^ c.pcieTagWidth) % 2 ^ c.pcieTagWidth) =
      if g.popped + 2 ^ c.pcieTagWidth < (g.next x.engine i).requested then
        endBeat x.engine.span (g.popped + 2 ^ c.pcieTagWidth) -
          max (8 * (g.popped + 2 ^ c.pcieTagWidth)) (g.next x.engine i).emitted else 0 := by
  obtain ⟨hlt, hend, -⟩ := h.tag.release hrd
  have he := h.not_emit_of_release hrd
  have halloc := h.allocated_le
  have hreq : (g.next x.engine i).requested ≤ g.popped + 2 ^ c.pcieTagWidth := by
    simp only [Flow.next]
    cases hacc : x.engine.req.accept i with
    | false =>
      unfold RdState.allocated at halloc
      rw [Bool.toNat_false]
      omega
    | true =>
      have := h.requested_lt (valid_of_accept hacc)
      rw [Bool.toNat_true]
      omega
  rw [if_neg (by omega), Nat.add_mod_right, h.slot_next le_rfl (lt_add_tagCount c _)]
  simp only [Flow.next, he, Bool.toNat_false, Nat.add_zero]
  split_ifs <;> omega

theorem DataFlight.step (ht : x.engine.req.take i = false) (hlegal : x.Legal i) (h : Flight x g) :
    DataFlight (x.step i) (g.next x.engine i) := by
  have hM := tagCount_pos c
  have hspan : (x.step i).engine.span = x.engine.span := span_stays ht
  refine ⟨?_, fun k hk hkm => ?_, fun tag htag => h.held_next hlegal htag, fun tag htag => ?_⟩
  · have hle := h.data.emitted_le
    simp only [Flow.next]
    cases he : x.engine.emit with
    | false =>
      rw [Bool.toNat_false]
      omega
    | true =>
      obtain ⟨hlt, hend, -⟩ := h.of_emit he
      have hb := endBeat_le x.engine.span g.popped
      rw [Bool.toNat_true]
      omega
  · rw [hspan]
    by_cases hwin : g.popped ≤ k ∧ k < g.popped + 2 ^ c.pcieTagWidth
    · exact h.slot_next hwin.1 hwin.2
    · cases hrd : x.engine.tag.opTagFifoRd with
      | false =>
        simp only [Flow.next, hrd, Bool.toNat_false] at hk hkm
        omega
      | true =>
        simp only [Flow.next, hrd, Bool.toNat_true] at hk hkm
        obtain rfl : k = g.popped + 2 ^ c.pcieTagWidth := by omega
        exact h.slot_released hrd
  · have hmem : tag ∈ x.owedNext i := htag
    rw [RdTrack.owedNext, List.mem_append] at hmem
    rcases hmem with hold | hnew
    · split_ifs at hold
      · exact h.data.owed_lt tag (List.mem_of_mem_erase hold)
      · exact h.data.owed_lt tag hold
    · split_ifs at hnew with hacc
      · obtain ⟨-, rfl⟩ := List.mem_replicate.mp hnew
        rw [(h.req.valid (valid_of_accept hacc)).2.1]
        exact Nat.mod_lt _ hM
      · cases hnew

/-! ### The receive FSM -/

lemma length_owedNext (hlegal : x.Legal i) (h : Flight x g) :
    (x.owedNext i).length + (x.engine.cplAccept i).toNat = x.owed.length +
      if x.engine.req.accept i then endBeat x.engine.span g.requested - 8 * g.requested else 0 := by
  have hnew : (if x.engine.req.accept i then List.replicate x.engine.req.txRdReqTlpHdrReg.dataBeats
      x.engine.req.txRdReqTlpHdrReg.tag else []).length =
      if x.engine.req.accept i then endBeat x.engine.span g.requested - 8 * g.requested else 0 := by
    split_ifs with hacc
    · rw [List.length_replicate, (h.req.valid (valid_of_accept hacc)).2.2]
    · rfl
  rw [RdTrack.owedNext, List.length_append, hnew]
  cases ha : x.engine.cplAccept i with
  | false => simp
  | true =>
    have hmem := Legal.tag_mem hlegal ha
    have hpos := List.length_pos_of_mem hmem
    rw [if_pos rfl, List.length_erase_of_mem hmem, Bool.toNat_true]
    omega

lemma Flight.startReg_next (ht : x.engine.req.take i = false) (h : Flight x g) :
    (rdStep x.engine i).req.descTxRdReqStartReg = false := by
  apply startReg_falls
  intro hs
  simpa [ReqReg.take, hs, (h.req.idle hs).2.2.2] using ht

lemma Flight.received_lt (h : Flight x g) (hlt : g.received < (x.engine.span + 63) / 64) :
    g.received + 1 < 2 ^ 32 := by
  have hlen := h.req.length_lt
  have htot := h.recv.total
  have halloc := h.allocated_le
  have hT : 2 ^ c.pcieTagWidth ≤ 2 ^ 8 := Nat.pow_le_pow_right (by omega) c.pcieTagWidth_le
  have hspan : x.engine.span = if x.engine.req.descTxRdReqLengthReg = 0 then 512 * 2 ^ 32
      else x.engine.req.descTxRdReqLengthReg := rfl
  unfold RdState.allocated at halloc
  split_ifs at hspan with hz
  · have hp := h.popped_zero hz
    omega
  · omega

/-- The modular count of the receive FSM meets its target with the last beat. -/
lemma Flight.received_wrap (h : Flight x g) (hlt : g.received < (x.engine.span + 63) / 64) :
    (g.received + 1) % 2 ^ 32 = (x.engine.span + 63) / 64 % 2 ^ 32 ↔
      g.received + 1 = (x.engine.span + 63) / 64 := by
  have hsmall := h.received_lt hlt
  have hlen := h.req.length_lt
  have hspan : x.engine.span = if x.engine.req.descTxRdReqLengthReg = 0 then 512 * 2 ^ 32
      else x.engine.req.descTxRdReqLengthReg := rfl
  split_ifs at hspan <;> omega

theorem RecvFlight.step (hc : c.Wide512) (ht : x.engine.req.take i = false) (hlegal : x.Legal i)
    (h : Flight x g) : RecvFlight (x.step i) (g.next x.engine i) := by
  have howed := length_owedNext hlegal h
  have hinv := h.recv.total
  have hspan : (x.step i).engine.span = x.engine.span := span_stays ht
  have hlow : (x.step i).engine.req.descTxRdReqStartReg = false := h.startReg_next ht
  have hnone : x.engine.recv.recvStateReg = .idle → x.engine.cplAccept i = false := by
    intro hr
    by_contra ha
    have := h.recv_start hlegal (by simpa using ha)
    rw [hr] at this
    cases this
  have htotal : (g.next x.engine i).received + (x.step i).owed.length =
      min (8 * (g.next x.engine i).requested) ((x.engine.span + 63) / 64) := by
    simp only [Flow.next, RdTrack.step]
    cases hacc : x.engine.req.accept i with
    | false =>
      simp only [hacc, Bool.false_eq_true, if_false] at howed
      rw [Bool.toNat_false]
      omega
    | true =>
      have hlt := (h.req.start (h.req.state_start (.inl (valid_of_accept hacc)))).1
      simp only [hacc, if_true] at howed
      rw [Bool.toNat_true]
      unfold endBeat at howed
      omega
  rw [← hspan] at htotal
  refine ⟨htotal, fun hfirst => ?_, fun hidle _ => ?_, fun hrun => ⟨hlow, ?_⟩⟩
  · rw [hlow] at hfirst
    cases hfirst
  · rw [hspan]
    simp only [RdTrack.step, rdStep, recvStep] at hidle
    cases hr : x.engine.recv.recvStateReg with
    | idle =>
      cases hs : x.engine.req.descTxRdReqStartReg with
      | true =>
        have hs' : (reqNext c x.engine.req i x.engine.tag.opTagFifoWe
            x.engine.tag.opTagFifoWrTag).descTxRdReqStartReg = false := hlow
        simp [hr, recvStart, hs, hs'] at hidle
      | false => simpa [Flow.next, hnone hr] using h.recv.idle hr hs
    | start =>
      obtain ⟨-, htr, hop, hlt⟩ := h.recv.start hr
      simp only [hr] at hidle
      cases hl : x.engine.cplLast i with
      | false => simp [hl] at hidle
      | true =>
        simp only [RdState.cplLast, RdState.cplOpCycleNext, hr, htr, hop, Bool.and_eq_true,
          decide_eq_true_eq] at hl
        obtain ⟨⟨-, ha⟩, heq⟩ := hl
        simp only [ha, if_true] at heq
        simp only [Flow.next, ha, Bool.toNat_true]
        exact (h.received_wrap hlt).mp heq
  · rw [hspan]
    simp only [RdTrack.step, rdStep, recvStep] at hrun ⊢
    cases hr : x.engine.recv.recvStateReg with
    | idle =>
      cases hrs : recvStart x.engine (reqNext c x.engine.req i x.engine.tag.opTagFifoWe
          x.engine.tag.opTagFifoWrTag) with
      | false => simp [hr, hrs] at hrun
      | true =>
        have hs : x.engine.req.descTxRdReqStartReg = true := by
          simp only [recvStart, Bool.and_eq_true] at hrs
          exact hrs.2.1
        have hzero := (h.recv.first hs).2.2.2
        have hpos := Flight.span_pos x
        have hbeats : beatCycles c (reqNext c x.engine.req i x.engine.tag.opTagFifoWe
            x.engine.tag.opTagFifoWrTag).descTxRdReqLengthReg = (x.engine.span + 63) / 64 % 2 ^ 32 := by
          rw [lengthReg_stays ht, beatCycles_span hc h.req.length_lt]
          rfl
        simp only [if_true, hbeats, RdState.cplOpCycleNext, hr, Flow.next, hnone hr, Bool.toNat_false,
          true_and]
        omega
    | start =>
      obtain ⟨-, htr, hop, hlt⟩ := h.recv.start hr
      have hwrap := h.received_wrap hlt
      simp only [hr] at hrun
      cases hl : x.engine.cplLast i with
      | true => simp [hl] at hrun
      | false =>
        simp only [RdState.cplOpCycleNext, hr, htr, hop, Flow.next]
        simp only [RdState.cplLast, RdState.cplOpCycleNext, hr, htr, hop] at hl
        cases ha : x.engine.cplAccept i with
        | false => simp [hlt]
        | true =>
          simp only [ha, if_true, BEq.rfl, Bool.true_and, decide_eq_false_iff_not] at hl
          have hne := mt hwrap.mpr hl
          have hsmall := h.received_lt hlt
          rw [Bool.toNat_true]
          simp only [if_true, true_and]
          omega

/-! ### The output FSM -/

/-- Once it has output everything the output FSM waits for the next descriptor. -/
lemma Flight.tr_stays_idle (ht : x.engine.req.take i = false)
    (hlow : x.engine.req.reqStateReg = .start → x.engine.req.descTxRdReqLengthReg = 0 →
      x.engine.tr.trStateReg = .idle → i.descTxRdReqStart = false)
    (h : Flight x g) (htr : x.engine.tr.trStateReg = .idle) : (rdStep x.engine i).tr.trStateReg = .idle := by
  have hno : (i.descTxRdReqStart && !x.engine.req.descTxRdReqStartReg) = false := by
    cases hs : x.engine.req.reqStateReg with
    | idle => simpa [ReqReg.take, hs] using ht
    | start =>
      by_cases hz : x.engine.req.descTxRdReqLengthReg = 0
      · rw [hlow hs hz htr]
        rfl
      · have hall := (h.out.idle htr).resolve_left hz
        have hlt := (h.req.start hs).1
        have hle := h.data.emitted_le
        omega
  simp [rdStep, trStep, trStateNext, htr, hno]

lemma Flight.length_of_emit (h : Flight x g) (he : x.engine.emit = true) :
    x.engine.req.descTxRdReqLengthReg ≠ 0 := by
  rw [h.emit_eq, RdState.pops, Bool.and_eq_true] at he
  exact (h.tag.rdEn _ he.1).2.2

theorem OutFlight.step (ht : x.engine.req.take i = false)
    (hlow : x.engine.req.reqStateReg = .start → x.engine.req.descTxRdReqLengthReg = 0 →
      x.engine.tr.trStateReg = .idle → i.descTxRdReqStart = false)
    (h : Flight x g) : OutFlight (rdStep x.engine i) (g.next x.engine i) := by
  have hspan := span_stays ht
  have hlen : (rdStep x.engine i).req.descTxRdReqLengthReg = x.engine.req.descTxRdReqLengthReg :=
    lengthReg_stays ht
  have hwide : x.engine.span ≤ 512 * 2 ^ 32 := h.req.span_le
  have hout : x.engine.tr.trStateReg = .start → x.engine.req.descTxRdReqLengthReg ≠ 0 → ∀ l,
      x.engine.outputCycleNext i l = (x.engine.span + 63) / 64 - (g.next x.engine i).emitted := by
    intro htr hz l
    obtain ⟨hlt, hreg⟩ := h.out.start htr
    have hL := h.req.length_lt
    have hs : x.engine.span = x.engine.req.descTxRdReqLengthReg := if_neg hz
    rw [if_neg hz] at hreg
    simp only [RdState.outputCycleNext, htr, Flow.next, hreg]
    cases x.engine.emit with
    | false => rfl
    | true =>
      simp only [if_true, Bool.toNat_true]
      omega
  have hzero : x.engine.req.descTxRdReqLengthReg = 0 → x.engine.emit = false := by
    intro hz
    by_contra he
    exact h.length_of_emit (by simpa using he) hz
  refine ⟨fun htr' => ?_, fun htr' => ?_, fun hz => ?_⟩
  · rw [hspan, hlen]
    cases htr : x.engine.tr.trStateReg with
    | idle =>
      rw [h.tr_stays_idle ht hlow htr] at htr'
      cases htr'
    | start =>
      by_cases hz : x.engine.req.descTxRdReqLengthReg = 0
      · have hreg := (h.out.start htr).2
        rw [if_pos hz] at hreg
        simp [rdStep, trStep, trStateNext, RdState.outputCycleNext, htr, hzero hz, hreg.2] at htr'
      · rw [if_neg hz]
        simp only [rdStep, trStep, trStateNext, htr, hout htr hz] at htr' ⊢
        split_ifs at htr' with hend
        exact ⟨by omega, trivial⟩
  · rw [hspan, hlen]
    cases htr : x.engine.tr.trStateReg with
    | idle =>
      have he : x.engine.emit = false := by simp [RdState.emit, htr]
      simpa [Flow.next, he] using h.out.idle htr
    | start =>
      by_cases hz : x.engine.req.descTxRdReqLengthReg = 0
      · exact .inl hz
      · right
        have hlt := (h.out.start htr).1
        have hone := Bool.toNat_le x.engine.emit
        simp only [rdStep, trStep, trStateNext, htr, hout htr hz] at htr'
        split_ifs at htr' with hend
        simp only [Flow.next] at hend ⊢
        omega
  · rw [hlen] at hz
    simp [Flow.next, hzero hz, h.out.zero hz]

/-- The descriptor stays in flight while no other one is taken. -/
theorem Flight.step (hc : c.Wide512) (ht : x.engine.req.take i = false) (hlegal : x.Legal i)
    (hlow : x.engine.req.reqStateReg = .start → x.engine.req.descTxRdReqLengthReg = 0 →
      x.engine.tr.trStateReg = .idle → i.descTxRdReqStart = false)
    (h : Flight x g) : Flight (x.step i) (g.next x.engine i) where
  req := h.req.step hc ht hlegal.ready
  tag := TagFlight.step hc ht hlegal.ready h
  data := DataFlight.step ht hlegal h
  recv := RecvFlight.step hc ht hlegal h
  out := OutFlight.step ht hlow h

end Step

end FpgaPcie
