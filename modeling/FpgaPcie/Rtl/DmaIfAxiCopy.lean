import FpgaPcie.Rtl.DmaIfAxi

/-!
# Transfers in both directions

The two directions meet in the memory only: the writer decides what is in it, and the reader sees the words it asks
for as they are at some time. So a transfer to the card goes its way whatever the other direction does, and one to the
host does so when nobody writes its words.
-/

namespace FpgaPcie

/-! ### Without a start -/

section Idle

lemma AxiDmaRdSystem.Quiet.step {c : AxiConfig} {s : AxiDmaRdState c} {i : AxiDmaRdInput c} (h : AxiDmaRdSystem.Quiet s)
    (hdesc : i.sAxisReadDescValid = false) : AxiDmaRdSystem.Quiet (s.step i) := by
  have haccept : s.descAccept i = false := by rw [AxiDmaRdState.descAccept, hdesc, Bool.and_false]
  have hvalid : s.tvalidInt i = false := by simp [AxiDmaRdState.tvalidInt, h.axis]
  have hstores := OutFifo.step_stores h.outFifo (s.tvalidInt i) (fun hv => by simp [hvalid] at hv) (s.beatInt i)
    i.mAxisReadDataTready
  rw [hvalid, OutFifo.queueNext_nil] at hstores
  refine ⟨?_, ?_, ?_, ?_, ?_, ?_, ?_⟩
  · simp [AxiDmaRdState.step, AxiDmaRdState.axiNext, h.axi, haccept]
  · simp [AxiDmaRdState.step, AxiDmaRdState.axiNext, h.axi, haccept, h.cmd]
  · simp [AxiDmaRdState.step, AxiDmaRdState.axiNext, h.axi, haccept, h.arvalid]
  · simp [AxiDmaRdState.step, AxiDmaRdState.axisNext, h.axis, h.cmd]
  · simp [AxiDmaRdState.step, AxiDmaRdState.axisNext, h.axis, h.cmd]
  · rw [AxiDmaRdState.step, hvalid]
    exact hstores
  · simp [AxiDmaRdState.step, OutFifo.step, OutFifo.load_eq h.outFifo, h.outValid]

lemma AxiDmaWrSystem.Quiet.step {c : AxiDmaWrConfig} {s : AxiDmaWrState c} {i : AxiDmaWrInput c}
    (h : AxiDmaWrSystem.Quiet s) (hdesc : i.sAxisWriteDescValid = false) : AxiDmaWrSystem.Quiet (s.step i) := by
  have haccept : s.descAccept i = false := by rw [AxiDmaWrState.descAccept, hdesc, Bool.and_false]
  have hwrites : s.writes i = false := s.writes_eq_false i (by simp [h.state])
  have hstart : s.startsBurst i = false := by simp [AxiDmaWrState.startsBurst, h.state]
  have hvalid : s.wvalidInt i = false := by simp [AxiDmaWrState.wvalidInt, hwrites, h.state]
  have hdec : s.decActive i = false := by simp [AxiDmaWrState.decActive, h.wr]
  have hwe : s.statusFifoWe i = false := by simp [AxiDmaWrState.statusFifoWe, hwrites]
  have hstores := OutFifo.step_stores h.outFifo (s.wvalidInt i) (fun hv => by simp [hvalid] at hv) (s.beatInt i) i.mAxiWready
  rw [hvalid, OutFifo.queueNext_nil] at hstores
  refine ⟨?_, ?_, ?_, ?_, ?_, ?_, ?_, ?_, ?_, ?_⟩
  · show (s.regNext i).stateReg = .idle
    rw [s.stateReg_idle i h.state, haccept]
    rfl
  · simp [AxiDmaWrState.step, AxiDmaWrState.regNext, AxiDmaWrState.idleNext, AxiDmaWrState.defaultNext, h.state, h.awvalid]
  · simp [AxiDmaWrState.step, AxiDmaWrState.regNext, AxiDmaWrState.idleNext, AxiDmaWrState.defaultNext, h.state]
  · simp [AxiDmaWrState.step, AxiDmaWrState.statusNext, hstart, hdec, h.active]
  · simp [AxiDmaWrState.step, AxiDmaWrState.statusNext, hstart, hdec, h.active]
  · simpa [AxiDmaWrState.step, AxiDmaWrState.statusNext, hdec] using h.rd_lt
  · simp [AxiDmaWrState.step, AxiDmaWrState.statusNext, hdec, hwe, h.wr]
  · simp [AxiDmaWrState.step, AxiDmaWrState.statusNext, h.wr]
  · rw [AxiDmaWrState.step, hvalid]
    exact hstores
  · simp [AxiDmaWrState.step, OutFifo.step, OutFifo.load_eq h.outFifo, h.outValid]

lemma AxiWr.Quiet.step {c : AxiWrConfig} {s : AxiWr c} {i : AxiWrInput c} (h : s.Quiet)
    (hstart : i.descWrReqStart = false) : (s.step i).Quiet where
  valid := by simp [AxiWr.step, WriteDesc.clock, AxiWr.descCycle, h.valid, hstart]
  startReg := hstart
  reader := AxiDmaRdSystem.Quiet.step h.reader h.valid
  engine := h.engine.step hstart
  tready := by simp [AxiWr.step, WrState.step, WrState.wrNext, h.engine.idle, AxiWr.wrInput, hstart]

lemma AxiRdDma.Quiet.step {c : AxiRdConfig} {s : AxiRdDma c} {i : AxiRdDmaInput c} (h : s.Quiet)
    (hstart : i.descTxRdReqStart = false) : (s.step i).Quiet where
  valid := by
    show (s.axiRd.writeDesc.clock _).sAxisWriteDescValid = false
    simp [WriteDesc.clock, AxiRdDma.rdInput, AxiRdInput.desc, h.valid, hstart]
  startReg := hstart
  engine := h.engine.step hstart
  writer := AxiDmaWrSystem.Quiet.step h.writer h.valid

variable {c : AxiRamConfig} {s : AxiRamState c} {i : AxiRamInput c}

lemma AxiRamState.WriteQuiet.step (h : s.WriteQuiet) (haw : i.sAxiAwvalid = false) :
    (s.step i).WriteQuiet ∧ (s.step i).bytes = s.bytes := by
  have haccept : s.awAccept i = false := by rw [awAccept, haw, Bool.and_false]
  have hwr : s.memWrEn i = false := by simp [memWrEn, h.write]
  refine ⟨⟨?_, ?_, ?_⟩, ?_⟩
  · simp [AxiRamState.step, writeNext, writeDefault, h.write, haccept]
  · simp [AxiRamState.step, writeNext, writeDefault, h.write, haccept]
  · simp [AxiRamState.step, writeNext, writeDefault, h.write, haccept, h.bvalid]
  · rw [bytes_step, hwr, if_neg Bool.false_ne_true]

lemma AxiRamState.ReadQuiet.step (h : s.ReadQuiet) (har : i.sAxiArvalid = false) : (s.step i).ReadQuiet := by
  have haccept : s.arAccept i = false := by rw [arAccept, har, Bool.and_false]
  have hrd : s.memRdEn i = false := by simp [memRdEn, h.read]
  have hpending := AxiRamSystem.pending_step s i
  rw [h.pending, hrd, if_neg Bool.false_ne_true, List.append_nil, List.append_eq_nil_iff] at hpending
  refine ⟨?_, hpending.2⟩
  simp [AxiRamState.step, readNext, readDefault, h.read, haccept]

end Idle

/-! ### Words -/

lemma AxiDesc.words_aligned {c : AxiConfig} {d : AxiDesc} {a : ℕ} (ha : a ∈ d.words c) : a % c.axiStrbWidth = 0 := by
  obtain ⟨b, -, rfl⟩ := List.mem_map.mp ha
  have hword : (c.addrMask d.addr + c.axiStrbWidth * b) % c.axiStrbWidth = 0 := by
    rw [Nat.add_mul_mod_self_left]
    exact c.addrMask_aligned d.addr
  exact AxiConfig.aligned_of_mod_eq (Nat.mod_mod _ _) hword

/-- A transfer to the card leaves the words of other descriptors alone. -/
theorem cardWord_copied {c : AxiConfig} {mem : HostMem} {address ramaddr length n a : ℕ} (hn : n ≤ length)
    (hal : a % c.axiStrbWidth = 0) (hnot : a ∉ AxiDesc.words c ⟨ramaddr, length⟩) (card : CardMem) :
    cardWord c (card.copied c mem address ramaddr n) a = cardWord c card a := by
  funext j
  refine if_neg ?_
  rintro ⟨hlt, ho⟩
  -- otherwise the lane is one of a word of the transfer
  have hback : (c.addrMask ramaddr + c.cardOffset ramaddr (a + j)) % 2 ^ c.axiAddrWidth = a + j :=
    AxiConfig.add_cardOffset hlt
  generalize c.cardOffset ramaddr (a + j) = o at ho hback
  have hlane := Nat.mod_lt o c.axiStrbWidth_pos
  have hword : (c.addrMask ramaddr + c.axiStrbWidth * (o / c.axiStrbWidth)) % c.axiStrbWidth = 0 := by
    rw [Nat.add_mul_mod_self_left]
    exact c.addrMask_aligned ramaddr
  have hsum := AxiConfig.word_add_lane hword hlane
  rw [Nat.add_assoc, Nat.div_add_mod, hback] at hsum
  have hmod := AxiConfig.aligned_of_mod_eq (c := c) (Nat.mod_mod _ _) hword
  generalize hx : (c.addrMask ramaddr + c.axiStrbWidth * (o / c.axiStrbWidth)) % 2 ^ c.axiAddrWidth = x at hsum hmod
  have hsame : x = a := by
    have hj := congrArg (· % c.axiStrbWidth) hsum
    simp only [Nat.add_mod, hmod, hal, Nat.zero_add, Nat.mod_mod, Nat.mod_eq_of_lt j.isLt] at hj
    omega
  apply hnot
  rw [← hsame, ← hx]
  refine List.mem_map.mpr ⟨o / c.axiStrbWidth, List.mem_range.mpr ?_, rfl⟩
  rw [Chunks.lt_count_iff c.axiStrbWidth_pos]
  exact (Nat.mul_div_le o _).trans_lt (ho.trans_le hn)

namespace DmaIfAxi

variable {c : DmaIfConfig} {s : DmaIfAxi c} {i : ℕ → DmaIfInput c} {mem : HostMem} {address length ramaddr : ℕ}

/-! ### One direction, whatever the other one does -/

/-- A transfer to the card. -/
theorem copies_to_card (hok : AxiRdDma.TransferOk c.rd address length) (hrd : s.dmaIfAxiRd.Quiet)
    (hram : s.axiRam.WriteQuiet) (hstart : AxiRdDma.StartsOnce (rdInputs s i) address length ramaddr)
    (hlegal : ∀ t, (AxiRdDma.reader s.dmaIfAxiRd (rdInputs s i) t).Legal mem
      (AxiRdDma.rdInputs s.dmaIfAxiRd (rdInputs s i) t)) :
    (∀ t, ∃ n, n ≤ length ∧
      (run s i t).axiRam.bytes = s.axiRam.bytes.copied c.wr.axi mem address ramaddr n) ∧
    ((∀ t tag, (AxiRdDma.reader s.dmaIfAxiRd (rdInputs s i) t).owed tag ≠ [] →
        ∃ u, t ≤ u ∧ (i u).rxCplTlpValid = true) →
      ∃ t₁, ∀ t, t₁ ≤ t →
        (run s i t).axiRam.bytes = s.axiRam.bytes.copied c.wr.axi mem address ramaddr length ∧
        (run s i t).dmaIfAxiRd.Quiet ∧ (run s i t).axiRam.WriteQuiet) := by
  have hlink := wrLink s i
  have hin := AxiRdDma.inputOk hok hrd hstart hlegal
  have hbytes : ∀ t, (run s i t).axiRam.bytes =
      cardAfter s.axiRam.bytes (AxiRdDma.writer s.dmaIfAxiRd (rdInputs s i) t).stored := by
    intro t
    rw [← ram_eq]
    exact hlink.bytes_eq hram hrd.writer hin t
  refine ⟨fun t => ?_, fun hans => ?_⟩
  · obtain ⟨n, hn, hcard⟩ := AxiRdDma.card_begins hok hrd hstart hlegal s.axiRam.bytes t
    exact ⟨n, hn, (hbytes t).trans hcard⟩
  · obtain ⟨t₁, ht₁⟩ := AxiRdDma.card_finishes hok hrd hstart hlegal s.axiRam.bytes
      ⟨hans, hlink.slaveFair hram hrd.writer hin⟩
    refine ⟨t₁, fun t ht => ?_⟩
    obtain ⟨hcard, hquiet⟩ := ht₁ t ht
    have hwriter : AxiDmaWrSystem.Quiet (AxiRdDma.writer s.dmaIfAxiRd (rdInputs s i) t).engine := by
      rw [AxiRdDma.writer_engine]
      exact hquiet.writer
    have hwrite := hlink.write_quiet hram hrd.writer hin hwriter
    rw [run_rd] at hquiet
    refine ⟨(hbytes t).trans hcard, hquiet, ?_⟩
    rw [← ram_eq]
    exact hwrite

/-- The reader asks for words of its descriptor only. -/
lemma asked_words (hwr : s.dmaIfAxiWr.Quiet) (hstart : AxiWr.StartsOnce (wrInputs s i) address length ramaddr)
    (hpos : 1 ≤ length) (hlt : length < 2 ^ 32) {t a : ℕ}
    (ha : a ∈ (AxiWr.reader s.dmaIfAxiWr (wrInputs s i) t).asked) : a ∈ AxiDesc.words c.wr.axi ⟨ramaddr, length⟩ := by
  have hinv : (AxiWr.reader s.dmaIfAxiWr (wrInputs s i) t).Inv :=
    AxiDmaRdSystem.Inv.run hwr.reader (AxiWr.descOk hwr hstart hpos hlt) t
  have hmem : a ∈ (AxiWr.reader s.dmaIfAxiWr (wrInputs s i) t).words := (AxiDmaRdSystem.asked_begins hinv).subset ha
  match t with
  | 0 => exact absurd hmem List.not_mem_nil
  | 1 =>
    have hnone : (AxiWr.reader s.dmaIfAxiWr (wrInputs s i) 1).accepted = [] := AxiWr.accepted_zero hwr
    rw [AxiDmaRdSystem.words, hnone] at hmem
    exact absurd hmem List.not_mem_nil
  | t + 2 =>
    have hone : (AxiWr.reader s.dmaIfAxiWr (wrInputs s i) (t + 2)).accepted = [⟨ramaddr, length⟩] :=
      AxiWr.accepted_eq hwr hstart t
    rw [AxiDmaRdSystem.words, hone, List.flatMap_singleton] at hmem
    exact hmem

/-- A transfer to the host of words that nobody writes. -/
theorem copies_to_host (card : CardMem) (host : HostMem) (hok : AxiWr.TransferOk c.wr address length)
    (hwr : s.dmaIfAxiWr.Quiet) (hram : s.axiRam.ReadQuiet)
    (hstart : AxiWr.StartsOnce (wrInputs s i) address length ramaddr)
    (hkept : ∀ t, ∀ a ∈ AxiDesc.words c.wr.axi ⟨ramaddr, length⟩,
      cardWord c.wr.axi (run s i t).axiRam.bytes a = cardWord c.wr.axi card a) :
    (∀ t, ∃ n, n ≤ length ∧ hostAfter host (AxiWr.writer s.dmaIfAxiWr (wrInputs s i) t).emitted =
      host.copied c.wr.axi card address (c.wr.axi.addrMask ramaddr) n) ∧
    ((∀ t, ∃ u, t ≤ u ∧ (i u).txWrReqTlpReady = true) → ∃ t₁, ∀ t, t₁ ≤ t →
      hostAfter host (AxiWr.writer s.dmaIfAxiWr (wrInputs s i) t).emitted =
        host.copied c.wr.axi card address (c.wr.axi.addrMask ramaddr) length ∧
      ((i t).descWrReqStart = false → (run s i (t + 1)).dmaIfAxiWr.Quiet ∧ (run s i (t + 1)).axiRam.ReadQuiet)) := by
  have hlink := rdLink s i
  have hdesc := AxiWr.descOk hwr hstart hok.pos hok.lt
  have hwords : ∀ t, ∀ a ∈ (AxiWr.reader s.dmaIfAxiWr (wrInputs s i) t).asked,
      cardWord c.wr.axi (run s i t).axiRam.bytes a = cardWord c.wr.axi card a := fun t a ha =>
    hkept t a (asked_words hwr hstart hok.pos hok.lt ha)
  simp only [← ram_eq] at hwords
  have hanswers := hlink.answers hram hwr.reader hdesc hwords
  refine ⟨AxiWr.host_begins hok hwr hstart hanswers host, fun hready => ?_⟩
  obtain ⟨t₁, ht₁⟩ := AxiWr.host_finishes hok hwr hstart hanswers host
    ⟨hlink.slaveFair hram hwr.reader hdesc, hready⟩
  refine ⟨t₁, fun t ht => ⟨(ht₁ t ht).1, fun hlow => ?_⟩⟩
  have hquiet := (ht₁ t ht).2 hlow
  have hreader : AxiDmaRdSystem.Quiet (AxiWr.reader s.dmaIfAxiWr (wrInputs s i) (t + 1)).engine := by
    rw [AxiWr.reader_engine]
    exact hquiet.reader
  have hread := hlink.read_quiet hram hwr.reader hdesc hreader
  rw [run_wr] at hquiet
  refine ⟨hquiet, ?_⟩
  rw [← ram_eq]
  exact hread

/-! ### Before the start -/

lemma idle_to_card (hquiet : s.Quiet) {T : ℕ} (hidle : ∀ t, t < T → (i t).descTxRdReqStart = false) {t : ℕ} (ht : t ≤ T) :
    (run s i t).dmaIfAxiRd.Quiet ∧ (run s i t).axiRam.WriteQuiet ∧ (run s i t).axiRam.bytes = s.axiRam.bytes := by
  induction t with
  | zero => exact ⟨hquiet.rd, hquiet.ram.toWriteQuiet, rfl⟩
  | succ t ih =>
    obtain ⟨hrd, hwrite, hbytes⟩ := ih (Nat.le_of_succ_le ht)
    obtain ⟨hwrite', hbytes'⟩ := hwrite.step (i := (run s i t).ramInput) hrd.writer.awvalid
    exact ⟨hrd.step (hidle t ht), hwrite', hbytes'.trans hbytes⟩

lemma idle_to_host (hquiet : s.Quiet) {T : ℕ} (hidle : ∀ t, t < T → (i t).descWrReqStart = false) {t : ℕ} (ht : t ≤ T) :
    (run s i t).dmaIfAxiWr.Quiet ∧ (run s i t).axiRam.ReadQuiet := by
  induction t with
  | zero => exact ⟨hquiet.wr, hquiet.ram.toReadQuiet⟩
  | succ t ih =>
    obtain ⟨hwr, hread⟩ := ih (Nat.le_of_succ_le ht)
    exact ⟨hwr.step (hidle t ht), hread.step (i := (run s i t).ramInput) hwr.reader.arvalid⟩

/-! ### Both directions -/

/-- One transfer to the card, which starts in cycle `T`, with a host that has `mem` and answers what it is asked. -/
structure ToCard (mem : HostMem) (s : DmaIfAxi c) (i : ℕ → DmaIfInput c) (T address length ramaddr : ℕ) : Prop where
  ok : AxiRdDma.TransferOk c.rd address length
  idle : ∀ t, t < T → (i t).descTxRdReqStart = false
  start : AxiRdDma.StartsOnce (rdInputs (run s i T) fun t => i (T + t)) address length ramaddr
  legal : ∀ t, (AxiRdDma.reader (run s i T).dmaIfAxiRd (rdInputs (run s i T) fun t => i (T + t)) t).Legal mem
    (AxiRdDma.rdInputs (run s i T).dmaIfAxiRd (rdInputs (run s i T) fun t => i (T + t)) t)

/-- The host answers in the end. -/
def HostAnswers (s : DmaIfAxi c) (i : ℕ → DmaIfInput c) (T : ℕ) : Prop :=
  ∀ t tag, (AxiRdDma.reader (run s i T).dmaIfAxiRd (rdInputs (run s i T) fun t => i (T + t)) t).owed tag ≠ [] →
    ∃ u, t ≤ u ∧ (i (T + u)).rxCplTlpValid = true

/-- One transfer to the host, which starts in cycle `T`. -/
structure ToHost (s : DmaIfAxi c) (i : ℕ → DmaIfInput c) (T address length ramaddr : ℕ) : Prop where
  ok : AxiWr.TransferOk c.wr address length
  idle : ∀ t, t < T → (i t).descWrReqStart = false
  start : AxiWr.StartsOnce (wrInputs (run s i T) fun t => i (T + t)) address length ramaddr

/-- What the host has been sent `t` cycles behind cycle `T`. -/
def sent (s : DmaIfAxi c) (i : ℕ → DmaIfInput c) (T t : ℕ) : List (WrBeat c.wr.wr) :=
  (AxiWr.writer (run s i T).dmaIfAxiWr (wrInputs (run s i T) fun t => i (T + t)) t).emitted

/-- The host takes a TLP in the end. -/
def HostTakes (i : ℕ → DmaIfInput c) : Prop := ∀ t, ∃ u, t ≤ u ∧ (i u).txWrReqTlpReady = true

lemma HostTakes.shift (h : HostTakes i) (T t : ℕ) : ∃ u, t ≤ u ∧ (i (T + u)).txWrReqTlpReady = true := by
  obtain ⟨u, hu, hready⟩ := h (T + t)
  obtain ⟨v, rfl⟩ := Nat.exists_eq_add_of_le (show T ≤ u by omega)
  exact ⟨v, by omega, hready⟩

variable {T : ℕ}

/-- The memory has a first part of the transfer at any time, also before it starts. -/
lemma ToCard.copied (h : ToCard mem s i T address length ramaddr) (hquiet : s.Quiet) (t : ℕ) : ∃ n, n ≤ length ∧
    (run s i t).axiRam.bytes = s.axiRam.bytes.copied c.wr.axi mem address ramaddr n := by
  obtain ⟨hrd, hwrite, hbytes⟩ := idle_to_card hquiet h.idle le_rfl
  rcases Nat.le_total t T with ht | ht
  · refine ⟨0, Nat.zero_le _, ?_⟩
    rw [(idle_to_card hquiet h.idle ht).2.2]
    funext a
    simp [CardMem.copied]
  · obtain ⟨u, rfl⟩ := Nat.exists_eq_add_of_le ht
    obtain ⟨n, hn, hcopied⟩ := (copies_to_card h.ok hrd hwrite h.start h.legal).1 u
    rw [hbytes, ← run_add] at hcopied
    exact ⟨n, hn, hcopied⟩

/-- It has all of it in the end. -/
lemma ToCard.finishes (h : ToCard mem s i T address length ramaddr) (hquiet : s.Quiet) (hans : HostAnswers s i T) :
    ∃ t₁, T ≤ t₁ ∧ ∀ t, t₁ ≤ t →
      (run s i t).axiRam.bytes = s.axiRam.bytes.copied c.wr.axi mem address ramaddr length ∧
      (run s i t).dmaIfAxiRd.Quiet ∧ (run s i t).axiRam.WriteQuiet := by
  obtain ⟨hrd, hwrite, hbytes⟩ := idle_to_card hquiet h.idle le_rfl
  obtain ⟨t₁, ht₁⟩ := (copies_to_card h.ok hrd hwrite h.start h.legal).2 hans
  refine ⟨T + t₁, Nat.le_add_right _ _, fun t ht => ?_⟩
  obtain ⟨u, rfl⟩ := Nat.exists_eq_add_of_le (show T ≤ t by omega)
  have hall := ht₁ u (by omega)
  rw [hbytes, ← run_add] at hall
  exact hall

/-- Both directions at once, on different words of the memory and with any offset between the starts. -/
theorem dma_if_axi_copies (mem host : HostMem) (s : DmaIfAxi c) (i : ℕ → DmaIfInput c)
    (T src length ramaddr T' dst length' ramaddr' : ℕ) (hquiet : s.Quiet)
    (hcard : ToCard mem s i T src length ramaddr) (hhost : ToHost s i T' dst length' ramaddr')
    (hapart : ∀ a ∈ AxiDesc.words c.wr.axi ⟨ramaddr', length'⟩, a ∉ AxiDesc.words c.wr.axi ⟨ramaddr, length⟩) :
    (∀ t, ∃ n, n ≤ length ∧ (run s i t).axiRam.bytes = s.axiRam.bytes.copied c.wr.axi mem src ramaddr n) ∧
    (∀ t, ∃ n, n ≤ length' ∧ hostAfter host (sent s i T' t) =
      host.copied c.wr.axi s.axiRam.bytes dst (c.wr.axi.addrMask ramaddr') n) ∧
    (HostAnswers s i T → HostTakes i → ∃ t₁, ∀ t, t₁ ≤ t →
      (run s i t).axiRam.bytes = s.axiRam.bytes.copied c.wr.axi mem src ramaddr length ∧
      hostAfter host (sent s i T' t) = host.copied c.wr.axi s.axiRam.bytes dst (c.wr.axi.addrMask ramaddr') length' ∧
      ((i t).descWrReqStart = false → (run s i (t + 1)).Quiet)) := by
  obtain ⟨hwr, hread⟩ := idle_to_host hquiet hhost.idle le_rfl
  obtain ⟨hpart, hall⟩ := copies_to_host s.axiRam.bytes host hhost.ok hwr hread hhost.start fun t a ha => by
    obtain ⟨n, hn, hbytes⟩ := hcard.copied hquiet (T' + t)
    rw [← run_add, hbytes]
    exact cardWord_copied hn (AxiDesc.words_aligned ha) (hapart a ha) _
  refine ⟨hcard.copied hquiet, hpart, fun hans htakes => ?_⟩
  obtain ⟨t₁, hT, ht₁⟩ := hcard.finishes hquiet hans
  obtain ⟨t₂, ht₂⟩ := hall (htakes.shift T')
  refine ⟨max t₁ (T' + t₂), fun t ht => ?_⟩
  have hle₁ := le_max_left t₁ (T' + t₂)
  have hle₂ := le_max_right t₁ (T' + t₂)
  refine ⟨(ht₁ t (by omega)).1, (ht₂ t (by omega)).1, fun hlow => ?_⟩
  obtain ⟨u, rfl⟩ := Nat.exists_eq_add_of_le (show T' ≤ t by omega)
  obtain ⟨-, hrd, hwrite⟩ := ht₁ (T' + u + 1) (by omega)
  obtain ⟨hwr', hread'⟩ := (ht₂ u (by omega)).2 hlow
  rw [← run_add] at hwr' hread'
  exact ⟨hwr', hrd, ⟨hwrite, hread'⟩⟩

/-! ### A host that answers at once -/

section Served

variable (mem : HostMem) (src length ramaddr : ℕ) (start : ℕ → Bool) (dst length' ramaddr' : ℕ) (s : DmaIfAxi c)

/-- The transfer to the card starts in cycle 0, and the host answers the lowest tag and takes what it is sent. -/
def serve (t : ℕ) (x : RdSystem c.rd.rd) : DmaIfInput c where
  descWrReqLength := length'
  descWrReqAddress := dst
  descWrReqStart := start t
  descWrRamAddr := ramaddr'
  txWrReqTlpReady := true
  descTxRdReqLength := length
  descTxRdReqAddress := src
  descTxRdReqStart := t == 0
  descRdRamAddr := ramaddr
  txRdReqTlpReady := true
  rxCplTlpValid := x.owingTag.isSome
  rxCplTlpHdr := cplHdrOfTag (x.owingTag.getD 0)
  rxCplTlpData := (x.serve mem src length t).rxCplTlpData

/-- The module with the log of its read engine. -/
def served : ℕ → DmaIfAxi c × RdSystem c.rd.rd
  | 0 => (s, RdSystem.fresh s.dmaIfAxiRd.axiRd.pcieAxisRd)
  | t + 1 =>
    let i := serve mem src length ramaddr start dst length' ramaddr' t (served t).2
    ((served t).1.step i, (served t).2.step ((served t).1.dmaIfAxiRd.rdInput ((served t).1.rdInput i)).toRdInput)

def servedInput (t : ℕ) : DmaIfInput c :=
  serve mem src length ramaddr start dst length' ramaddr' t
    (served mem src length ramaddr start dst length' ramaddr' s t).2

lemma run_served (t : ℕ) : run s (servedInput mem src length ramaddr start dst length' ramaddr' s) t =
    (served mem src length ramaddr start dst length' ramaddr' s t).1 := by
  induction t with
  | zero => rfl
  | succ t ih => rw [run, ih, served, servedInput]

lemma reader_served (t : ℕ) : AxiRdDma.reader s.dmaIfAxiRd
    (rdInputs s (servedInput mem src length ramaddr start dst length' ramaddr' s)) t =
      (served mem src length ramaddr start dst length' ramaddr' s t).2 := by
  induction t with
  | zero => rfl
  | succ t ih =>
    show (AxiRdDma.reader s.dmaIfAxiRd (rdInputs s (servedInput mem src length ramaddr start dst length' ramaddr' s)) t).step
      (AxiRdDma.rdInputs s.dmaIfAxiRd (rdInputs s (servedInput mem src length ramaddr start dst length' ramaddr' s)) t) = _
    rw [ih, AxiRdDma.rdInputs, run_rd, rdInputs, run_served, served, servedInput]

lemma served_starts : AxiRdDma.StartsOnce
    (rdInputs s (servedInput mem src length ramaddr start dst length' ramaddr' s)) src length ramaddr := by
  refine ⟨rfl, fun t ht => ?_, rfl, rfl, rfl, rfl⟩
  show (t == 0) = false
  rw [beq_eq_false_iff_ne]
  omega

lemma served_legal (t : ℕ) : (AxiRdDma.reader s.dmaIfAxiRd
    (rdInputs s (servedInput mem src length ramaddr start dst length' ramaddr' s)) t).Legal mem
      (AxiRdDma.rdInputs s.dmaIfAxiRd (rdInputs s (servedInput mem src length ramaddr start dst length' ramaddr' s)) t) := by
  rw [reader_served]
  have hlegal := RdSystem.serve_legal mem src length t (served mem src length ramaddr start dst length' ramaddr' s t).2
  exact ⟨fun _ => rfl, hlegal.answers⟩

lemma run_from_zero (i : ℕ → DmaIfInput c) : rdInputs (run s i 0) (fun t => i (0 + t)) = rdInputs s i := by
  have hsame : (fun t => i (0 + t)) = i := by
    funext t
    rw [Nat.zero_add]
  rw [hsame]
  rfl

lemma served_toCard (hok : AxiRdDma.TransferOk c.rd src length) :
    ToCard mem s (servedInput mem src length ramaddr start dst length' ramaddr' s) 0 src length ramaddr := by
  refine ⟨hok, fun t ht => absurd ht (Nat.not_lt_zero t), ?_, fun t => ?_⟩
  · rw [run_from_zero]
    exact served_starts mem src length ramaddr start dst length' ramaddr' s
  · rw [run_from_zero]
    exact served_legal mem src length ramaddr start dst length' ramaddr' s t

lemma served_answers (hok : AxiRdDma.TransferOk c.rd src length) (hquiet : s.Quiet) :
    HostAnswers s (servedInput mem src length ramaddr start dst length' ramaddr' s) 0 := by
  intro t tag hne
  rw [run_from_zero] at hne
  have howing := AxiRdDma.owingTag_isSome hok hquiet.rd (served_starts mem src length ramaddr start dst length' ramaddr' s)
    (served_legal mem src length ramaddr start dst length' ramaddr' s) hne
  rw [reader_served] at howing
  refine ⟨t, le_rfl, ?_⟩
  rw [Nat.zero_add]
  exact howing

end Served

/-- 1000 bytes go to card address 4032, and 300 bytes from card address 256 to the host a few cycles later. -/
theorem dma_if_axi_served :
    let c : DmaIfConfig := ⟨6, 5, 6, 0, 2, 2, 16, 64, false, by decide, by decide, by decide, by decide, by decide, by decide,
      by decide⟩
    let mem : HostMem := fun a => BitVec.ofNat 8 a
    let s := reset c
    let i := servedInput mem 8192 1000 4032 (fun t => t == 5) 65536 300 256 s
    ∃ t₁, ∀ t, t₁ ≤ t →
      (run s i t).axiRam.bytes = s.axiRam.bytes.copied c.wr.axi mem 8192 4032 1000 ∧
      hostAfter mem (sent s i 5 t) = mem.copied c.wr.axi s.axiRam.bytes 65536 (c.wr.axi.addrMask 256) 300 := by
  intro c mem s i
  have hok : AxiRdDma.TransferOk c.rd 8192 1000 := ⟨⟨rfl, rfl⟩, by decide, by decide, by decide, by decide, by decide⟩
  have hok' : AxiWr.TransferOk c.wr 65536 300 :=
    ⟨rfl, by decide, .inl (by decide), by decide, by decide, by decide, by decide⟩
  have hhost : ToHost s i 5 65536 300 256 := by
    refine ⟨hok', fun t ht => ?_, rfl, rfl, rfl, rfl, rfl, fun t ht => ?_⟩
    · show (t == 5) = false
      rw [beq_eq_false_iff_ne]
      omega
    · have hsix : (5 + (t + 1) == 5) = true := ht
      rw [beq_iff_eq] at hsix
      omega
  have hapart : ∀ a ∈ AxiDesc.words c.wr.axi ⟨256, 300⟩, a ∉ AxiDesc.words c.wr.axi ⟨4032, 1000⟩ := by decide
  obtain ⟨t₁, ht₁⟩ := (dma_if_axi_copies mem mem s i 0 8192 1000 4032 5 65536 300 256 (reset_quiet c)
    (served_toCard mem 8192 1000 4032 _ 65536 300 256 s hok) hhost hapart).2.2
    (served_answers mem 8192 1000 4032 _ 65536 300 256 s hok (reset_quiet c)) fun t => ⟨t, le_rfl, rfl⟩
  exact ⟨t₁, fun t ht => ⟨(ht₁ t ht).1, (ht₁ t ht).2.1⟩⟩

end DmaIfAxi

end FpgaPcie
