import FpgaPcie.Lib.ZipLog
import FpgaPcie.Rtl.AxiDmaWrRun

/-!
# Frames of the card memory writer

The FSM follows the current descriptor word by word: how many beats of its frame have come, and how many beats the
burst on the W channel still needs. From this the stores of the W channel are those of the frames at any time.
-/

namespace FpgaPcie

variable {c : AxiDmaWrConfig}

namespace AxiDmaWrSystem

/-- The registers of a descriptor of which the bursts cover `n` words. -/
structure Covered (c : AxiDmaWrConfig) (r : AxiDmaWrReg) (d : AxiDesc) (n : ℕ) : Prop where
  op : r.opWordCountReg = d.len - c.axiStrbWidth * n
  addr : 0 < r.opWordCountReg →
    r.addrReg % 2 ^ c.axiAddrWidth = (c.addrMask d.addr + c.axiStrbWidth * n) % 2 ^ c.axiAddrWidth
  offset : r.lastCycleOffsetReg = d.len % c.axiStrbWidth
  lt : d.len < 2 ^ 32

/-- A burst with `left + 1` beats to come. -/
structure Counting (r : AxiDmaWrReg) (left : ℕ) : Prop where
  count : r.outputCycleCountReg = left
  last : r.outputLastCycleReg = decide (left = 0)
  lt : left < 256

/-- A frame of which `left + 1` beats go to the burst on the W channel, when `made` beats have been made. -/
structure Writing (x : AxiDmaWrSystem c) (g : WrFrames c) (made : ℕ) (d : AxiDesc) (left : ℕ) : Prop where
  busy : g.busy = some d
  covered : Covered c x.engine.reg d (g.current.length + (left + 1))
  counting : Counting x.engine.reg left
  input : x.engine.reg.inputActiveReg = true ∧ x.engine.reg.inputCycleCountReg = left
  lastTransfer : x.engine.reg.lastTransferReg = decide (x.engine.reg.opWordCountReg = 0)
  within : c.axiStrbWidth * (g.current.length + left) < d.len
  words : x.words.drop made = c.wordAddrs (c.addrMask d.addr + c.axiStrbWidth * g.current.length) (left + 1)

/-- What the state of the FSM says about the current frame. -/
inductive Phase (x : AxiDmaWrSystem c) (g : WrFrames c) (made : ℕ) : Prop
  | idle (hs : x.engine.reg.stateReg = .idle) (hbusy : g.busy = none)
  | start (d : AxiDesc) (hs : x.engine.reg.stateReg = .start) (hbusy : g.busy = some d)
    (hcov : Covered c x.engine.reg d g.current.length) (hmore : 0 < x.engine.reg.opWordCountReg)
  | write (d : AxiDesc) (left : ℕ) (hs : x.engine.reg.stateReg = .write) (hw : Writing x g made d left)
  | finishBurst (left : ℕ) (hs : x.engine.reg.stateReg = .finishBurst) (hbusy : g.busy = none)
    (hcount : Counting x.engine.reg left)
  | dropData (d : AxiDesc) (hs : x.engine.reg.stateReg = .dropData) (hbusy : g.busy = some d)
    (hlast : c.axisLastEnable = true) (hpast : Chunks.count c.axiStrbWidth d.len ≤ g.current.length)
    (hready : x.engine.reg.sAxisWriteDataTreadyReg = true)

/-- The `wlast` flags that the burst still needs. -/
def flagsLeft (r : AxiDmaWrReg) : List Bool :=
  if r.stateReg = .write ∨ r.stateReg = .finishBurst then
    List.replicate r.outputCycleCountReg false ++ [true]
  else []

/-- A beat of the stream may come that goes to the W channel. -/
def asks (s : AxiDmaWrState c) : Bool := s.reg.stateReg == .write && s.reg.sAxisWriteDataTreadyReg

structure Inv (x : AxiDmaWrSystem c) (g : WrFrames c) (q : List (WBeat c.axiStrbWidth)) : Prop where
  accepted : x.accepted = g.accepted
  taken : x.taken = g.taken
  framed : g.Framed
  room : x.engine.out.Room AxiDmaWrState.outputFifoAddrWidth (asks x.engine) q
  stores : (storesOf x.words (x.made q)).filter CardStore.effective = g.stores.filter CardStore.effective
  flags : (x.made q).map WBeat.wlast ++ flagsLeft x.engine.reg = x.bursts.flatMap AxiBurst.lastFlags
  legal : ∀ b ∈ x.bursts, b.Legal c.toAxiConfig
  ready : x.engine.reg.sAxisWriteDescReadyReg = true → x.engine.reg.stateReg = .idle
  tready : x.engine.reg.sAxisWriteDataTreadyReg = true →
    x.engine.reg.stateReg = .write ∨ x.engine.reg.stateReg = .dropData
  status : StatusInv x.engine x.answered x.bursts.length
  phase : Phase x g (x.made q).length

variable {x : AxiDmaWrSystem c} {i : AxiDmaWrInput c} {g : WrFrames c} {q : List (WBeat c.axiStrbWidth)}

/-! ### What every edge does -/

lemma ready_next (s : AxiDmaWrState c) (h : (s.regNext i).sAxisWriteDescReadyReg = true) :
    (s.regNext i).stateReg = .idle := by
  have hdefault : (s.defaultNext i).sAxisWriteDescReadyReg = false := rfl
  have hcount : (s.countNext i).sAxisWriteDescReadyReg = false := rfl
  have hwrote : (s.wroteNext i).sAxisWriteDescReadyReg = false := rfl
  cases hs : s.reg.stateReg with
  | idle =>
    rw [s.stateReg_idle i hs]
    simp only [AxiDmaWrState.regNext, hs, AxiDmaWrState.idleNext, Bool.and_eq_true, Bool.not_eq_true'] at h
    rw [h.1]
    rfl
  | start =>
    simp only [AxiDmaWrState.regNext, hs, AxiDmaWrState.startNext] at h
    split_ifs at h <;> simp [hcount] at h
  | write =>
    simp only [AxiDmaWrState.regNext, hs, AxiDmaWrState.writeNext] at h ⊢
    split_ifs at h ⊢ <;> first | rfl | simp [hwrote, hdefault] at h
  | finishBurst =>
    rw [s.stateReg_finishBurst i hs]
    simp only [AxiDmaWrState.regNext, hs, AxiDmaWrState.finishBurstNext] at h
    cases hr : s.wreadyInt with
    | false => simp [hr, hdefault] at h
    | true =>
      simp only [hr, if_true, Bool.and_eq_true] at h
      rw [h.1]
      rfl
  | dropData =>
    rw [s.stateReg_dropData i hs]
    simp only [AxiDmaWrState.regNext, hs, AxiDmaWrState.dropDataNext] at h
    split_ifs at h ⊢ <;> first | rfl | simp [hdefault] at h

/-- The stream is asked for beats in two states only, and for one that goes to the W channel only when the FIFO was
less than half full. -/
lemma tready_next (s : AxiDmaWrState c) (h : (s.regNext i).sAxisWriteDataTreadyReg = true) :
    (s.regNext i).stateReg = .write ∧ s.out.outFifoHalfFullReg = false ∨ (s.regNext i).stateReg = .dropData := by
  have hdefault : (s.defaultNext i).sAxisWriteDataTreadyReg = false := rfl
  have hcount : (s.countNext i).sAxisWriteDataTreadyReg = false := rfl
  have hwrote : (s.wroteNext i).sAxisWriteDataTreadyReg = false := rfl
  have hroom : s.wreadyInt = true → s.out.outFifoHalfFullReg = false := by simp [AxiDmaWrState.wreadyInt]
  cases hs : s.reg.stateReg with
  | idle => simp [AxiDmaWrState.regNext, hs, AxiDmaWrState.idleNext, hdefault] at h
  | start =>
    have hstate := s.stateReg_start i hs
    simp only [AxiDmaWrState.regNext, hs, AxiDmaWrState.startNext] at h
    split_ifs at h with hgo hb
    · rw [hb] at hstate
      exact .inl ⟨hstate, hroom h⟩
    · simp [hcount] at h
    · simp [hcount] at h
  | write =>
    have hdef : (s.defaultNext i).stateReg = .write := hs
    have hkeep : (s.wroteNext i).stateReg = .write := hs
    simp only [AxiDmaWrState.regNext, hs, AxiDmaWrState.writeNext] at h ⊢
    split_ifs at h ⊢ with hw
    · simp [hwrote] at h
    · simp [hwrote] at h
    · simp [hwrote] at h
    · exact .inr rfl
    · simp [hwrote] at h
    · rw [Bool.and_eq_true] at h
      exact .inl ⟨hkeep, hroom h.1⟩
    · rw [Bool.and_eq_true] at h
      exact .inl ⟨hdef, hroom h.1⟩
  | finishBurst =>
    simp only [AxiDmaWrState.regNext, hs, AxiDmaWrState.finishBurstNext] at h
    split_ifs at h <;> simp [hdefault] at h
  | dropData =>
    have hstate := s.stateReg_dropData i hs
    simp only [AxiDmaWrState.regNext, hs, AxiDmaWrState.dropDataNext] at h
    split_ifs at h with hl
    · simp [hdefault] at h
    · rw [if_neg hl] at hstate
      exact .inr hstate

/-- The beats made in a cycle. -/
def news (s : AxiDmaWrState c) (i : AxiDmaWrInput c) : List (WBeat c.axiStrbWidth) :=
  if s.wvalidInt i then [s.beatInt i] else []

lemma made_step (hq : x.engine.out.Stores AxiDmaWrState.outputFifoAddrWidth q) :
    (x.step i).made (x.engine.out.queueNext (x.engine.wvalidInt i) (x.engine.beatInt i) i.mAxiWready q) =
      x.made q ++ news x.engine i := by
  have hpend := OutFifo.step_pending hq (x.engine.wvalidInt i) (x.engine.beatInt i) i.mAxiWready
  show (x.written ++ _) ++ (x.engine.out.step _ _ _ _).pending _ = _
  rw [List.append_assoc, hpend, ← List.append_assoc]
  rfl

/-- What the states have to say about an edge. -/
structure Next (x : AxiDmaWrSystem c) (i : AxiDmaWrInput c) (g g' : WrFrames c) (q : List (WBeat c.axiStrbWidth)) :
    Prop where
  accepted : g'.accepted = g.accepted ++ if x.engine.descAccept i then [i.sAxisWriteDesc] else []
  taken : g'.taken = g.taken ++ if x.engine.dataAccept i then [i.sAxisWriteData] else []
  framed : g'.Framed
  room : x.engine.wvalidInt i = true → asks x.engine = true ∨ x.engine.out.outFifoHalfFullReg = false
  stores : (storesOf (x.step i).words (x.made q ++ news x.engine i)).filter CardStore.effective =
    g'.stores.filter CardStore.effective
  flags : (x.made q ++ news x.engine i).map WBeat.wlast ++ flagsLeft (x.engine.regNext i) =
    (x.step i).bursts.flatMap AxiBurst.lastFlags
  legal : ∀ b ∈ (x.step i).bursts, b.Legal c.toAxiConfig
  phase : Phase (x.step i) g' (x.made q ++ news x.engine i).length

theorem Inv.of_next {g' : WrFrames c} (h : Inv x g q) (hn : Next x i g g' q) : Inv (x.step i) g'
    (x.engine.out.queueNext (x.engine.wvalidInt i) (x.engine.beatInt i) i.mAxiWready q) := by
  have hmade := made_step (i := i) h.room.stores
  have henable : asks (x.step i).engine = true → x.engine.out.outFifoHalfFullReg = false := by
    intro ha
    simp only [asks, Bool.and_eq_true, beq_iff_eq] at ha
    rcases tready_next x.engine ha.2 with hw | hd
    · exact hw.2
    · exact absurd (ha.1.symm.trans hd) (by decide)
  refine ⟨?_, ?_, hn.framed, h.room.step (by decide) hn.room henable _ _, ?_, ?_, hn.legal,
    ready_next x.engine, fun ht => ?_, ?_, ?_⟩
  · rw [hn.accepted, ← h.accepted]
    rfl
  · rw [hn.taken, ← h.taken]
    rfl
  · rw [hmade]
    exact hn.stores
  · rw [hmade]
    exact hn.flags
  · exact (tready_next x.engine ht).imp And.left id
  · have hlen : (x.step i).bursts.length = x.bursts.length + (x.engine.startsBurst i).toNat := by
      rw [bursts_step, List.length_append]
      cases x.engine.startsBurst i <;> rfl
    rw [hlen]
    exact h.status.step
  · rw [hmade]
    exact hn.phase

/-! ### Words and beats -/

lemma flags_length (b : AxiBurst) : (b.lastFlags).length = (b.words c.toAxiConfig).length := by
  simp [AxiBurst.lastFlags, AxiBurst.words]

lemma words_length (x : AxiDmaWrSystem c) :
    x.words.length = (x.bursts.flatMap AxiBurst.lastFlags).length := by
  unfold words
  induction x.bursts with
  | nil => rfl
  | cons b l ih => rw [List.flatMap_cons, List.flatMap_cons, List.length_append, List.length_append, ih, flags_length]

/-- The beats made and the beats that the burst still needs are the words of the bursts. -/
lemma Inv.count (h : Inv x g q) : (x.made q).length + (flagsLeft x.engine.reg).length = x.words.length := by
  have hlen := congrArg List.length h.flags
  rw [List.length_append, List.length_map, ← words_length] at hlen
  exact hlen

lemma flagsLeft_count {r : AxiDmaWrReg} {left : ℕ} (hs : r.stateReg = .write ∨ r.stateReg = .finishBurst)
    (hcount : Counting r left) : flagsLeft r = List.replicate left false ++ [true] := by
  rw [flagsLeft, if_pos hs, hcount.count]

lemma flagsLeft_nil {r : AxiDmaWrReg} (hw : r.stateReg ≠ .write) (hf : r.stateReg ≠ .finishBurst) :
    flagsLeft r = [] := if_neg (by simp [hw, hf])

lemma news_nil {s : AxiDmaWrState c} (h : s.wvalidInt i = false) : news s i = [] := by simp [news, h]

lemma news_one {s : AxiDmaWrState c} (h : s.wvalidInt i = true) : news s i = [s.beatInt i] := by simp [news, h]

lemma wvalid_false {s : AxiDmaWrState c} (hw : s.reg.stateReg ≠ .write) (hf : s.reg.stateReg ≠ .finishBurst) :
    s.wvalidInt i = false := by
  simp [AxiDmaWrState.wvalidInt, s.writes_eq_false i hw, hf]

lemma startsBurst_false {s : AxiDmaWrState c} (hs : s.reg.stateReg ≠ .start) : s.startsBurst i = false := by
  simp [AxiDmaWrState.startsBurst, hs]

lemma Inv.descAccept_false (h : Inv x g q) (hs : x.engine.reg.stateReg ≠ .idle) : x.engine.descAccept i = false := by
  cases hr : x.engine.reg.sAxisWriteDescReadyReg with
  | false => simp [AxiDmaWrState.descAccept, hr]
  | true => exact absurd (h.ready hr) hs

lemma Inv.dataAccept_false (h : Inv x g q) (hw : x.engine.reg.stateReg ≠ .write)
    (hd : x.engine.reg.stateReg ≠ .dropData) : x.engine.dataAccept i = false := by
  cases hr : x.engine.reg.sAxisWriteDataTreadyReg with
  | false => simp [AxiDmaWrState.dataAccept, hr]
  | true => exact absurd (h.tready hr) (by simp [hw, hd])

lemma bursts_same (h : x.engine.startsBurst i = false) : (x.step i).bursts = x.bursts := by
  rw [bursts_step, h, if_neg Bool.false_ne_true, List.append_nil]

lemma words_same (h : x.engine.startsBurst i = false) : (x.step i).words = x.words := by
  rw [words, words, bursts_same h]

/-! ### `STATE_IDLE` -/

lemma frameDone_nil {d : AxiDesc} (hpos : 1 ≤ d.len) : d.frameDone c [] = false := by
  unfold AxiDesc.frameDone
  cases c.axisLastEnable with
  | true => rfl
  | false =>
    have := Chunks.count_pos c.axiStrbWidth_pos hpos
    simp
    omega

theorem Inv.idle_step (hin : InputOk i) (h : Inv x g q) (hs : x.engine.reg.stateReg = .idle)
    (hbusy : g.busy = none) : ∃ g', Next x i g g' q := by
  have hv : x.engine.wvalidInt i = false := wvalid_false (by simp [hs]) (by simp [hs])
  have hb : x.engine.startsBurst i = false := startsBurst_false (by simp [hs])
  have hd : x.engine.dataAccept i = false := h.dataAccept_false (by simp [hs]) (by simp [hs])
  have hleft := flagsLeft_nil (r := x.engine.reg) (by simp [hs]) (by simp [hs])
  have hstate := x.engine.stateReg_idle i hs
  have hflags := h.flags
  rw [hleft, List.append_nil] at hflags
  have hcur := h.framed.idle hbusy
  cases ha : x.engine.descAccept i with
  | false =>
    rw [ha, if_neg Bool.false_ne_true] at hstate
    refine ⟨g, by simp [ha], by simp [hd], h.framed, by simp [hv], ?_, ?_, ?_, .idle hstate hbusy⟩
    · rw [words_same hb, news_nil hv, List.append_nil]
      exact h.stores
    · rw [bursts_same hb, news_nil hv, List.append_nil, flagsLeft_nil (by simp [hstate]) (by simp [hstate]),
        List.append_nil]
      exact hflags
    · rw [bursts_same hb]
      exact h.legal
  | true =>
    rw [ha, if_pos rfl] at hstate
    have hvalid : i.sAxisWriteDescValid = true := by
      simp only [AxiDmaWrState.descAccept, Bool.and_eq_true] at ha
      exact ha.2
    obtain ⟨hpos, hlt⟩ := hin.desc hvalid
    have hreg : x.engine.regNext i = x.engine.idleNext i := by simp [AxiDmaWrState.regNext, hs]
    refine ⟨g.accept i.sAxisWriteDesc, ?_, ?_, ?_, by simp [hv], ?_, ?_, ?_, ?_⟩
    · rw [WrFrames.accept_accepted hbusy, ha, if_pos rfl]
    · rw [hd, if_neg Bool.false_ne_true, List.append_nil]
      rfl
    · exact WrFrames.accept_framed h.framed hcur (frameDone_nil hpos)
    · rw [words_same hb, news_nil hv, List.append_nil, WrFrames.accept_stores hbusy hcur]
      exact h.stores
    · rw [bursts_same hb, news_nil hv, List.append_nil, flagsLeft_nil (by simp [hstate]) (by simp [hstate]),
        List.append_nil]
      exact hflags
    · rw [bursts_same hb]
      exact h.legal
    · have hzero : (g.accept i.sAxisWriteDesc).current.length = 0 := by
        show g.current.length = 0
        rw [hcur, List.length_nil]
      refine .start i.sAxisWriteDesc hstate rfl ⟨?_, fun _ => ?_, ?_, hlt⟩ ?_
      · rw [hzero]
        show (x.engine.regNext i).opWordCountReg = _
        rw [hreg]
        rfl
      · rw [hzero]
        show (x.engine.regNext i).addrReg % _ = _
        rw [hreg]
        rfl
      · show (x.engine.regNext i).lastCycleOffsetReg = _
        rw [hreg]
        rfl
      · show 0 < (x.engine.regNext i).opWordCountReg
        rw [hreg]
        exact hpos

/-! ### `STATE_START` -/

/-- The registers of a burst that begins. -/
lemma regNext_go {s : AxiDmaWrState c} {tr : ℕ} (hb : s.startsBurst i = true)
    (htr : c.trWordCountNext s.reg.addrReg s.reg.opWordCountReg = tr) :
    (s.regNext i).opWordCountReg = (s.reg.opWordCountReg + (2 ^ 32 - tr)) % 2 ^ 32 ∧
    (s.regNext i).addrReg = (s.reg.addrReg + tr) % 2 ^ c.axiAddrWidth ∧
    (s.regNext i).lastCycleOffsetReg = s.reg.lastCycleOffsetReg ∧
    (s.regNext i).outputCycleCountReg = c.cycleCountNext tr ∧
    (s.regNext i).outputLastCycleReg = decide (c.cycleCountNext tr = 0) ∧
    (s.regNext i).inputActiveReg = true ∧ (s.regNext i).inputCycleCountReg = c.cycleCountNext tr ∧
    (s.regNext i).lastTransferReg = decide (tr = s.reg.opWordCountReg) := by
  obtain ⟨hs, hv, hav⟩ := startsBurst_spec hb
  have hgo : (!s.reg.mAxiAwvalidReg && s.status.activeCountAvReg) = true := by simp [hv, hav]
  simp only [AxiDmaWrState.regNext, hs, AxiDmaWrState.startNext, hgo, hb, if_true, htr,
    AxiDmaWrState.countNext]
  exact ⟨trivial, trivial, rfl, trivial, trivial, trivial, trivial, trivial⟩

theorem Inv.start_step (h : Inv x g q) {d : AxiDesc} (hs : x.engine.reg.stateReg = .start)
    (hbusy : g.busy = some d) (hcov : Covered c x.engine.reg d g.current.length)
    (hmore : 0 < x.engine.reg.opWordCountReg) : ∃ g', Next x i g g' q := by
  have hv : x.engine.wvalidInt i = false := wvalid_false (by simp [hs]) (by simp [hs])
  have ha : x.engine.descAccept i = false := h.descAccept_false (by simp [hs])
  have hd : x.engine.dataAccept i = false := h.dataAccept_false (by simp [hs]) (by simp [hs])
  have hleft := flagsLeft_nil (r := x.engine.reg) (by simp [hs]) (by simp [hs])
  have hstate := x.engine.stateReg_start i hs
  have hflags := h.flags
  rw [hleft, List.append_nil] at hflags
  cases hb : x.engine.startsBurst i with
  | false =>
    rw [hb, if_neg Bool.false_ne_true] at hstate
    refine ⟨g, by simp [ha], by simp [hd], h.framed, by simp [hv], ?_, ?_, ?_, ?_⟩
    · rw [words_same hb, news_nil hv, List.append_nil]
      exact h.stores
    · rw [bursts_same hb, news_nil hv, List.append_nil, flagsLeft_nil (by simp [hstate]) (by simp [hstate]),
        List.append_nil]
      exact hflags
    · rw [bursts_same hb]
      exact h.legal
    · have hkeep : (x.engine.regNext i).opWordCountReg = x.engine.reg.opWordCountReg ∧
          (x.engine.regNext i).addrReg = x.engine.reg.addrReg ∧
          (x.engine.regNext i).lastCycleOffsetReg = x.engine.reg.lastCycleOffsetReg := by
        simp only [AxiDmaWrState.regNext, hs, AxiDmaWrState.startNext, hb, Bool.false_eq_true, if_false]
        split_ifs <;> exact ⟨rfl, rfl, rfl⟩
      refine .start d hstate hbusy ⟨?_, fun _ => ?_, ?_, hcov.lt⟩ ?_
      · exact hkeep.1.trans hcov.op
      · show (x.engine.regNext i).addrReg % _ = _
        rw [hkeep.2.1]
        exact hcov.addr hmore
      · exact hkeep.2.2.trans hcov.offset
      · show 0 < (x.engine.regNext i).opWordCountReg
        rw [hkeep.1]
        exact hmore
  | true =>
    rw [hb, if_pos rfl] at hstate
    have hS := c.axiStrbWidth_pos
    have haddr := hcov.addr hmore
    have hop := hcov.op
    have hlt : x.engine.reg.opWordCountReg < 2 ^ 32 := by
      have := hcov.lt
      omega
    have haligned : x.engine.reg.addrReg % c.axiStrbWidth = 0 := by
      apply AxiConfig.aligned_of_mod_eq haddr
      rw [Nat.add_mul_mod_self_left]
      exact AxiConfig.addrMask_aligned d.addr
    have hcut := AxiConfig.trWordCountNext_cut haligned hmore
    generalize htr : c.trWordCountNext x.engine.reg.addrReg x.engine.reg.opWordCountReg = tr at hcut
    obtain ⟨hop', haddr', hoff', hout', hlast', hact', hin', hlt'⟩ := regNext_go hb htr
    obtain ⟨hlen, hmax, hax⟩ := AxiConfig.axlenNext_add_one hcut hlt
    obtain ⟨hbelow, hrest, hexact⟩ := AxiConfig.cut_words hcut
    have hpos := hcut.pos
    have hle := hcut.le
    have hsub : (x.engine.reg.opWordCountReg + (2 ^ 32 - tr)) % 2 ^ 32 = x.engine.reg.opWordCountReg - tr := by omega
    rw [hsub] at hop'
    have h256 := c.axiMaxBurstLen_le
    have hcount : c.cycleCountNext tr + 1 = Chunks.count c.axiStrbWidth tr := by rw [← hax, hlen]
    have hbursts : (x.step i).bursts = x.bursts ++ [⟨x.engine.reg.addrReg, c.axlenNext tr⟩] := by
      rw [bursts_step, hb, if_pos rfl, htr]
    have hwords : (x.step i).words = x.words ++ AxiBurst.words c.toAxiConfig ⟨x.engine.reg.addrReg, c.axlenNext tr⟩ := by
      rw [words, words, hbursts, List.flatMap_append, List.flatMap_singleton]
    have hmade := h.count
    rw [hleft, List.length_nil, Nat.add_zero] at hmade
    have hcounting : Counting (x.engine.regNext i) (c.cycleCountNext tr) := ⟨hout', hlast', by omega⟩
    refine ⟨g, by simp [ha], by simp [hd], h.framed, by simp [hv], ?_, ?_, ?_, ?_⟩
    · rw [hwords, news_nil hv, List.append_nil, storesOf, ZipLog.zipWith_plan_append hmade.le]
      exact h.stores
    · rw [hbursts, news_nil hv, List.append_nil, flagsLeft_count (.inl hstate) hcounting, List.flatMap_append,
        ← hflags, List.flatMap_singleton]
      show _ = _ ++ (List.replicate (c.axlenNext tr) false ++ [true])
      rw [hax]
    · rw [hbursts]
      intro b hbmem
      rcases List.mem_append.mp hbmem with hold | hnew
      · exact h.legal b hold
      · rw [List.mem_singleton.mp hnew]
        exact AxiConfig.burst_legal hcut haligned hlt
    · rw [news_nil hv, List.append_nil]
      refine .write d (c.cycleCountNext tr) hstate ⟨hbusy, ⟨?_, fun hmore' => ?_, ?_, hcov.lt⟩, hcounting,
        ⟨hact', hin'⟩, ?_, ?_, ?_⟩
      · show (x.engine.regNext i).opWordCountReg = _
        rw [hop', hcount, hrest, hop, Nat.sub_sub, Nat.mul_add]
      · have hmore'' : 0 < (x.engine.regNext i).opWordCountReg := hmore'
        rw [hop'] at hmore''
        have hfull : tr = c.axiStrbWidth * (c.cycleCountNext tr + 1) := by
          rw [hcount]
          exact hexact hmore''
        show (x.engine.regNext i).addrReg % _ = _
        rw [haddr', Nat.mod_mod]
        calc (x.engine.reg.addrReg + tr) % 2 ^ c.axiAddrWidth
            = (c.addrMask d.addr + c.axiStrbWidth * g.current.length + tr) % 2 ^ c.axiAddrWidth := by
              rw [← Nat.mod_add_mod, haddr, Nat.mod_add_mod]
          _ = (c.addrMask d.addr + c.axiStrbWidth * (g.current.length + (c.cycleCountNext tr + 1))) %
                2 ^ c.axiAddrWidth := by
              rw [Nat.mul_add, ← hfull, Nat.add_assoc]
      · exact hoff'.trans hcov.offset
      · show (x.engine.regNext i).lastTransferReg = decide ((x.engine.regNext i).opWordCountReg = 0)
        rw [hlt', hop', decide_eq_decide]
        omega
      · rw [Nat.mul_add]
        rw [show Chunks.count c.axiStrbWidth tr - 1 = c.cycleCountNext tr by omega] at hbelow
        omega
      · rw [hmade, hwords, List.drop_left]
        show c.wordAddrs x.engine.reg.addrReg (c.axlenNext tr + 1) = _
        rw [hax, ← AxiConfig.wordAddrs_mod, haddr, AxiConfig.wordAddrs_mod]

/-! ### `STATE_WRITE` -/

section Write

variable {d : AxiDesc} {left : ℕ}

/-- The word of the next beat is the last one of the descriptor and not a whole one, or it is inside. -/
lemma word_partial {j op off : ℕ} (hop : op = d.len - c.axiStrbWidth * (j + (left + 1)))
    (hoff : off = d.len % c.axiStrbWidth) (hwithin : c.axiStrbWidth * (j + left) < d.len) :
    if left = 0 ∧ op = 0 ∧ 0 < off then d.len = c.axiStrbWidth * j + off
    else c.axiStrbWidth * j + c.axiStrbWidth ≤ d.len := by
  have hS := c.axiStrbWidth_pos
  rw [Nat.mul_add] at hwithin
  rw [Nat.mul_add, Nat.mul_succ] at hop
  have hdiv := Nat.div_add_mod d.len c.axiStrbWidth
  rw [← hoff] at hdiv
  split_ifs with htail
  · obtain ⟨rfl, hop0, hpos⟩ := htail
    rw [Nat.mul_zero] at hwithin hop
    have hlt : off < c.axiStrbWidth := by
      rw [hoff]
      exact Nat.mod_lt _ hS
    have hle : d.len / c.axiStrbWidth < j + 1 := by
      apply Nat.lt_of_mul_lt_mul_left (a := c.axiStrbWidth)
      rw [Nat.mul_succ]
      omega
    have hge : j < d.len / c.axiStrbWidth + 1 := by
      apply Nat.lt_of_mul_lt_mul_left (a := c.axiStrbWidth)
      rw [Nat.mul_succ]
      omega
    rw [show d.len / c.axiStrbWidth = j by omega] at hdiv
    exact hdiv.symm
  · by_cases hleft : left = 0
    · by_cases hop0 : op = 0
      · have hzero : off = 0 := by
          by_contra hne
          exact htail ⟨hleft, hop0, Nat.pos_of_ne_zero hne⟩
        rw [hzero, Nat.add_zero] at hdiv
        have hq : j < d.len / c.axiStrbWidth := by
          apply Nat.lt_of_mul_lt_mul_left (a := c.axiStrbWidth)
          rw [hdiv]
          omega
        have hmul := Nat.mul_le_mul_left c.axiStrbWidth (Nat.succ_le_of_lt hq)
        rw [Nat.mul_succ] at hmul
        omega
      · omega
    · have hmul := Nat.mul_le_mul_left c.axiStrbWidth (Nat.pos_of_ne_zero hleft)
      rw [Nat.mul_one] at hmul
      omega

/-- The strobes are the lanes of the descriptor that the stream has bytes for. -/
lemma Writing.wstrb {made : ℕ} (h : Writing x g made d left) (hin : InputOk i)
    (hvalid : i.sAxisWriteDataTvalid = true) :
    x.engine.wstrbInt i = (d.store c g.current.length i.sAxisWriteData).strb := by
  obtain ⟨-, hcov, hcount, -, hlast, hwithin, -⟩ := h
  generalize x.engine = s at *
  generalize g.current.length = j at *
  have hword := word_partial hcov.op hcov.offset hwithin
  have hcond : (s.reg.outputLastCycleReg && (s.reg.lastTransferReg && decide (0 < s.reg.lastCycleOffsetReg))) =
        decide (left = 0 ∧ s.reg.opWordCountReg = 0 ∧ 0 < s.reg.lastCycleOffsetReg) ∧
      (s.reg.outputLastCycleReg && (!decide (0 < s.reg.opWordCountReg) && decide (0 < s.reg.lastCycleOffsetReg))) =
        decide (left = 0 ∧ s.reg.opWordCountReg = 0 ∧ 0 < s.reg.lastCycleOffsetReg) := by
    rw [hcount.last, hlast]
    constructor
    · rw [Bool.decide_and, Bool.decide_and]
    · rw [Bool.decide_and, Bool.decide_and, ← decide_not]
      simp
  have hkeep : AxiDmaWrState.shiftAxisTlast i = true → ∃ m, ∀ k, i.sAxisWriteData.tkeep k = decide (k.val < m) := by
    intro hl
    rw [AxiDmaWrState.shiftAxisTlast, Bool.and_eq_true] at hl
    exact hin.keep hvalid hl.1 hl.2
  funext k
  have hk := k.isLt
  show s.wstrbInt i k = (decide (c.axiStrbWidth * j + k < d.len) &&
    (!AxiDmaWrState.shiftAxisTlast i || i.sAxisWriteData.tkeep k))
  unfold AxiDmaWrState.wstrbInt
  rw [hcond.1, hcond.2]
  by_cases htail : left = 0 ∧ s.reg.opWordCountReg = 0 ∧ 0 < s.reg.lastCycleOffsetReg
  · rw [if_pos htail] at hword
    have hlanes : ∀ k, decide (c.axiStrbWidth * j + k.val < d.len) = s.lastLanes k := by
      intro k
      rw [AxiDmaWrState.lastLanes, decide_eq_decide, hword]
      omega
    rw [decide_eq_true htail, hlanes]
    cases hl : AxiDmaWrState.shiftAxisTlast i with
    | false => simp
    | true =>
      obtain ⟨m, hm⟩ := hkeep hl
      simp only [if_true, Bool.not_true, Bool.false_or]
      split_ifs with hsub
      · cases hk' : i.sAxisWriteData.tkeep k with
        | false => rw [Bool.and_false]
        | true => rw [hsub k hk', Bool.and_true]
      · -- a lane beyond the descriptor is kept, so that all its lanes are
        obtain ⟨k', hk'⟩ := not_forall.mp hsub
        obtain ⟨hkept, hout⟩ := Classical.not_imp.mp hk'
        rw [hm, decide_eq_true_eq] at hkept
        rw [AxiDmaWrState.lastLanes, decide_eq_true_eq] at hout
        rw [hm, AxiDmaWrState.lastLanes, ← Bool.decide_and, decide_eq_decide]
        omega
  · rw [if_neg htail] at hword
    have hinside : decide (c.axiStrbWidth * j + k.val < d.len) = true := decide_eq_true (by omega)
    rw [decide_eq_false htail, hinside]
    cases AxiDmaWrState.shiftAxisTlast i <;> simp

lemma frameDone_last {frame : List (AxisBeat c.axiStrbWidth)} (hl : AxiDmaWrState.shiftAxisTlast i = true) :
    d.frameDone c (frame ++ [i.sAxisWriteData]) = true := by
  rw [AxiDmaWrState.shiftAxisTlast, Bool.and_eq_true] at hl
  simp [AxiDesc.frameDone, hl.1, hl.2]

lemma frameDone_more {frame : List (AxisBeat c.axiStrbWidth)} (hl : AxiDmaWrState.shiftAxisTlast i = false)
    (hopen : d.frameDone c frame = false)
    (hmore : c.axisLastEnable = true ∨ c.axiStrbWidth * (frame.length + 1) < d.len) :
    d.frameDone c (frame ++ [i.sAxisWriteData]) = false := by
  cases he : c.axisLastEnable with
  | true =>
    rw [AxiDmaWrState.shiftAxisTlast, he, Bool.true_and] at hl
    rw [AxiDesc.frameDone, he, if_pos rfl] at hopen ⊢
    rw [List.any_append, hopen]
    simp [hl]
  | false =>
    have hlt := (Chunks.lt_count_iff c.axiStrbWidth_pos).mpr (hmore.resolve_left (by simp [he]))
    rw [AxiDesc.frameDone, he, if_neg Bool.false_ne_true, List.length_append, List.length_singleton,
      decide_eq_false_iff_not]
    omega

/-- The registers behind a beat. -/
lemma regNext_wrote {s : AxiDmaWrState c} (hs : s.reg.stateReg = .write) (hw : s.writes i = true) :
    (s.regNext i).opWordCountReg = s.reg.opWordCountReg ∧ (s.regNext i).addrReg = s.reg.addrReg ∧
    (s.regNext i).lastCycleOffsetReg = s.reg.lastCycleOffsetReg ∧
    (s.regNext i).lastTransferReg = s.reg.lastTransferReg ∧
    (s.regNext i).outputCycleCountReg = c.cycleCountPred s.reg.outputCycleCountReg ∧
    (s.regNext i).outputLastCycleReg = decide (c.cycleCountPred s.reg.outputCycleCountReg = 0) ∧
    (s.regNext i).inputActiveReg = (s.inputActiveNext && !AxiDmaWrState.shiftAxisTlast i) ∧
    (s.regNext i).inputCycleCountReg = s.inputCycleCountNext := by
  simp only [AxiDmaWrState.regNext, hs, AxiDmaWrState.writeNext, hw, if_true]
  split_ifs <;> exact ⟨rfl, rfl, rfl, rfl, rfl, rfl, rfl, rfl⟩

lemma Counting.next {r r' : AxiDmaWrReg} (h : Counting r (left + 1))
    (hcount : r'.outputCycleCountReg = c.cycleCountPred r.outputCycleCountReg)
    (hlast : r'.outputLastCycleReg = decide (c.cycleCountPred r.outputCycleCountReg = 0)) : Counting r' left := by
  have hlt := h.lt
  have hb := c.axiBurstSize_le
  have hwide : 2 ^ 26 ≤ 2 ^ (33 - c.axiBurstSize) := Nat.pow_le_pow_right (by norm_num) (by omega)
  have hpred : c.cycleCountPred r.outputCycleCountReg = left := by
    rw [h.count]
    exact AxiConfig.cycleCountPred_succ (by omega)
  rw [hpred] at hcount hlast
  exact ⟨hcount, hlast, by omega⟩

/-- The next beat of the W channel. -/
lemma Inv.beat_flags (h : Inv x g q) (hs : x.engine.reg.stateReg = .write ∨ x.engine.reg.stateReg = .finishBurst)
    (hcount : Counting x.engine.reg left) (hv : x.engine.wvalidInt i = true)
    (hwlast : (x.engine.beatInt i).wlast = x.engine.reg.outputLastCycleReg) {l : List Bool}
    (hl : List.replicate left false ++ [true] = decide (left = 0) :: l) :
    (x.made q ++ news x.engine i).map WBeat.wlast ++ l = x.bursts.flatMap AxiBurst.lastFlags := by
  have hflags := h.flags
  rw [flagsLeft_count hs hcount, hl] at hflags
  rw [news_one hv, List.map_append, List.map_singleton, hwlast, hcount.last, ← hflags, List.append_assoc]
  rfl

/-- A cycle of `STATE_WRITE` without a beat. -/
lemma Inv.write_wait (h : Inv x g q) (hs : x.engine.reg.stateReg = .write)
    (hw : Writing x g (x.made q).length d left) (hnone : x.engine.writes i = false)
    (hd : x.engine.dataAccept i = false) : Next x i g g q := by
  have ha : x.engine.descAccept i = false := h.descAccept_false (by simp [hs])
  have hb : x.engine.startsBurst i = false := startsBurst_false (by simp [hs])
  have hv : x.engine.wvalidInt i = false := by simp [AxiDmaWrState.wvalidInt, hnone, hs]
  have hstate : (x.engine.regNext i).stateReg = .write := by
    rw [x.engine.stateReg_write i hs, hnone, Bool.false_and, if_neg Bool.false_ne_true]
  have hreg : x.engine.regNext i = { x.engine.defaultNext i with
      sAxisWriteDataTreadyReg := x.engine.wreadyInt &&
        (x.engine.reg.lastTransferReg || x.engine.reg.inputActiveReg) } := by
    simp [AxiDmaWrState.regNext, hs, AxiDmaWrState.writeNext, hnone]
  have hwriting : Writing (x.step i) g (x.made q ++ news x.engine i).length d left := by
    have hengine : (x.step i).engine.reg = x.engine.regNext i := rfl
    refine ⟨hw.busy, ?_, ?_, ?_, ?_, hw.within, ?_⟩
    · rw [hengine, hreg]
      exact ⟨hw.covered.op, hw.covered.addr, hw.covered.offset, hw.covered.lt⟩
    · rw [hengine, hreg]
      exact ⟨hw.counting.count, hw.counting.last, hw.counting.lt⟩
    · rw [hengine, hreg]
      exact hw.input
    · rw [hengine, hreg]
      exact hw.lastTransfer
    · rw [words_same hb, news_nil hv, List.append_nil]
      exact hw.words
  refine ⟨by simp [ha], by simp [hd], h.framed, by simp [hv], ?_, ?_, ?_, .write d left hstate hwriting⟩
  · rw [words_same hb, news_nil hv, List.append_nil]
    exact h.stores
  · have hflags := h.flags
    rw [flagsLeft_count (.inl hs) hw.counting] at hflags
    rw [bursts_same hb, news_nil hv, List.append_nil, flagsLeft_count (.inl hstate) hwriting.counting]
    exact hflags
  · rw [bursts_same hb]
    exact h.legal

/-- What a beat of the stream does, whatever the next state is. -/
structure Taking (x : AxiDmaWrSystem c) (i : AxiDmaWrInput c) (g : WrFrames c) (q : List (WBeat c.axiStrbWidth))
    (left : ℕ) : Prop where
  writes : x.engine.writes i = true
  startsBurst : x.engine.startsBurst i = false
  wvalid : x.engine.wvalidInt i = true
  accepted : g.accepted = g.accepted ++ if x.engine.descAccept i then [i.sAxisWriteDesc] else []
  taken : g.taken ++ [i.sAxisWriteData] = g.taken ++ if x.engine.dataAccept i then [i.sAxisWriteData] else []
  room : x.engine.wvalidInt i = true → asks x.engine = true ∨ x.engine.out.outFifoHalfFullReg = false
  stores : (storesOf (x.step i).words (x.made q ++ news x.engine i)).filter CardStore.effective =
    (g.take i.sAxisWriteData).stores.filter CardStore.effective
  flags : ∀ l, List.replicate left false ++ [true] = decide (left = 0) :: l →
    (x.made q ++ news x.engine i).map WBeat.wlast ++ l = (x.step i).bursts.flatMap AxiBurst.lastFlags
  legal : ∀ b ∈ (x.step i).bursts, b.Legal c.toAxiConfig

lemma Inv.taking (hin : InputOk i) (h : Inv x g q) (hs : x.engine.reg.stateReg = .write)
    (hw : Writing x g (x.made q).length d left) (hd : x.engine.dataAccept i = true) : Taking x i g q left := by
  have hwrites : x.engine.writes i = true := by simp [AxiDmaWrState.writes, hs, hw.input.1, hd]
  have ha : x.engine.descAccept i = false := h.descAccept_false (by simp [hs])
  have hb : x.engine.startsBurst i = false := startsBurst_false (by simp [hs])
  have hv : x.engine.wvalidInt i = true := by simp [AxiDmaWrState.wvalidInt, hwrites]
  have hasks : x.engine.reg.sAxisWriteDataTreadyReg = true ∧ i.sAxisWriteDataTvalid = true := by
    simpa [AxiDmaWrState.dataAccept] using hd
  -- the new beat is the store of the stream beat
  have hbeat : x.engine.beatInt i = ⟨i.sAxisWriteData.tdata, (d.store c g.current.length i.sAxisWriteData).strb,
      x.engine.reg.outputLastCycleReg⟩ := by
    rw [← hw.wstrb hin hasks.2]
    simp [AxiDmaWrState.beatInt, hs]
  have hlt : g.current.length < Chunks.count c.axiStrbWidth d.len := by
    have hwithin := hw.within
    rw [Chunks.lt_count_iff c.axiStrbWidth_pos]
    rw [Nat.mul_add] at hwithin
    omega
  refine ⟨hwrites, hb, hv, by simp [ha], by simp [hd], fun _ => .inl (by simp [asks, hs, hasks.1]), ?_, fun l hl => ?_, ?_⟩
  · have hnext := hw.words
    rw [AxiConfig.wordAddrs_succ] at hnext
    rw [words_same hb, news_one hv, storesOf, ZipLog.zipWith_log_snoc hnext, List.filter_append,
      WrFrames.take_stores hw.busy hlt, List.filter_append, hbeat]
    exact congrArg (· ++ _) h.stores
  · rw [bursts_same hb]
    exact h.beat_flags (.inl hs) hw.counting hv (by rw [hbeat]) hl
  · rw [bursts_same hb]
    exact h.legal

/-- The last beat of a burst. -/
lemma Inv.write_last (h : Inv x g q) (hs : x.engine.reg.stateReg = .write)
    (hw : Writing x g (x.made q).length d 0) (ht : Taking x i g q 0) : ∃ g', Next x i g g' q := by
  have hopen := h.framed.busy d hw.busy
  have hop0 : x.engine.reg.opWordCountReg = d.len - c.axiStrbWidth * (g.current.length + 1) := hw.covered.op
  have hlen : (g.current ++ [i.sAxisWriteData]).length = g.current.length + 1 := by
    rw [List.length_append, List.length_singleton]
  obtain ⟨hop', haddr', hoff', -, -, -, -, -⟩ := regNext_wrote hs ht.writes
  have ho : x.engine.reg.outputLastCycleReg = true := by simp [hw.counting.last]
  have hstate := x.engine.stateReg_write i hs
  rw [ht.writes, ho, Bool.or_true, Bool.and_true, if_pos rfl] at hstate
  have hflags : (x.made q ++ news x.engine i).map WBeat.wlast ++ flagsLeft (x.engine.regNext i) =
      (x.step i).bursts.flatMap AxiBurst.lastFlags := by
    rw [flagsLeft_nil]
    · exact ht.flags [] rfl
    · rw [hstate]
      split_ifs <;> decide
    · rw [hstate]
      split_ifs <;> simp_all
  have hfinish : (g.finish d i.sAxisWriteData).accepted =
      g.accepted ++ if x.engine.descAccept i then [i.sAxisWriteDesc] else [] := by
    rw [WrFrames.finish_accepted hw.busy]
    exact ht.accepted
  cases hl : AxiDmaWrState.shiftAxisTlast i with
  | true =>
    rw [hl, if_pos rfl, if_pos rfl] at hstate
    exact ⟨g.finish d i.sAxisWriteData, hfinish, WrFrames.finish_taken.trans ht.taken,
      WrFrames.finish_framed h.framed hw.busy (frameDone_last hl), ht.room,
      by rw [WrFrames.finish_stores hw.busy]; exact ht.stores, hflags, ht.legal, .idle hstate rfl⟩
  | false =>
    rw [hl, if_neg Bool.false_ne_true] at hstate
    by_cases hop : 0 < x.engine.reg.opWordCountReg
    · -- the next burst of the descriptor
      rw [if_pos hop] at hstate
      refine ⟨g.take i.sAxisWriteData, ht.accepted, WrFrames.take_taken.trans ht.taken,
        WrFrames.take_framed h.framed hw.busy (frameDone_more hl hopen (.inr (by omega))), ht.room, ht.stores, hflags,
        ht.legal, .start d hstate hw.busy ⟨?_, fun hmore => ?_, ?_, hw.covered.lt⟩ ?_⟩
      · show (x.engine.regNext i).opWordCountReg = d.len - c.axiStrbWidth * (g.current ++ [i.sAxisWriteData]).length
        rw [hop', hlen]
        exact hop0
      · show (x.engine.regNext i).addrReg % _ = (_ + _ * (g.current ++ [i.sAxisWriteData]).length) % _
        rw [haddr', hlen]
        exact hw.covered.addr hop
      · exact hoff'.trans hw.covered.offset
      · show 0 < (x.engine.regNext i).opWordCountReg
        rw [hop']
        exact hop
    · have hpast : Chunks.count c.axiStrbWidth d.len ≤ (g.current ++ [i.sAxisWriteData]).length := by
        rw [hlen]
        by_contra hmore
        have := (Chunks.lt_count_iff c.axiStrbWidth_pos).mp (Nat.not_le.mp hmore)
        omega
      rw [if_neg hop] at hstate
      cases he : c.axisLastEnable with
      | true =>
        rw [he, if_pos rfl] at hstate
        have hready : (x.engine.regNext i).sAxisWriteDataTreadyReg = true := by
          simp [AxiDmaWrState.regNext, hs, AxiDmaWrState.writeNext, ht.writes, hl, ho, hop, he]
        exact ⟨g.take i.sAxisWriteData, ht.accepted, WrFrames.take_taken.trans ht.taken,
          WrFrames.take_framed h.framed hw.busy (frameDone_more hl hopen (.inl he)), ht.room, ht.stores, hflags, ht.legal,
          .dropData d hstate hw.busy he hpast hready⟩
      | false =>
        rw [he, if_neg Bool.false_ne_true] at hstate
        refine ⟨g.finish d i.sAxisWriteData, hfinish, WrFrames.finish_taken.trans ht.taken,
          WrFrames.finish_framed h.framed hw.busy ?_, ht.room, ?_, hflags, ht.legal, .idle hstate rfl⟩
        · rw [AxiDesc.frameDone, he, if_neg Bool.false_ne_true]
          exact decide_eq_true hpast
        · rw [WrFrames.finish_stores hw.busy]
          exact ht.stores

/-- A beat of a burst with more to come. -/
lemma Inv.write_more (h : Inv x g q) (hs : x.engine.reg.stateReg = .write)
    (hw : Writing x g (x.made q).length d (left + 1)) (ht : Taking x i g q (left + 1)) : ∃ g', Next x i g g' q := by
  have hopen := h.framed.busy d hw.busy
  have hlen : (g.current ++ [i.sAxisWriteData]).length = g.current.length + 1 := by
    rw [List.length_append, List.length_singleton]
  obtain ⟨hop', haddr', hoff', hlt', hout', hlast', hact', hcnt'⟩ := regNext_wrote hs ht.writes
  have ho : x.engine.reg.outputLastCycleReg = false := by simp [hw.counting.last]
  have hcount' := hw.counting.next (c := c) hout' hlast'
  have hstate := x.engine.stateReg_write i hs
  rw [ht.writes, ho, Bool.or_false, Bool.true_and, if_neg Bool.false_ne_true] at hstate
  have hflags : (x.engine.regNext i).stateReg = .write ∨ (x.engine.regNext i).stateReg = .finishBurst →
      (x.made q ++ news x.engine i).map WBeat.wlast ++ flagsLeft (x.engine.regNext i) =
        (x.step i).bursts.flatMap AxiBurst.lastFlags := by
    intro hburst
    rw [flagsLeft_count hburst hcount']
    exact ht.flags _ rfl
  cases hl : AxiDmaWrState.shiftAxisTlast i with
  | true =>
    rw [hl, if_pos rfl, if_pos rfl] at hstate
    refine ⟨g.finish d i.sAxisWriteData, ?_, WrFrames.finish_taken.trans ht.taken,
      WrFrames.finish_framed h.framed hw.busy (frameDone_last hl), ht.room, ?_, hflags (.inr hstate), ht.legal,
      .finishBurst left hstate rfl hcount'⟩
    · rw [WrFrames.finish_accepted hw.busy]
      exact ht.accepted
    · rw [WrFrames.finish_stores hw.busy]
      exact ht.stores
  | false =>
    rw [hl, if_neg Bool.false_ne_true] at hstate
    have hsame : (g.current ++ [i.sAxisWriteData]).length + (left + 1) = g.current.length + (left + 1 + 1) := by
      rw [hlen]
      omega
    have hmore : c.axiStrbWidth * (g.current.length + 1) < d.len := by
      refine Nat.lt_of_le_of_lt (Nat.mul_le_mul_left _ ?_) hw.within
      omega
    refine ⟨g.take i.sAxisWriteData, ht.accepted, WrFrames.take_taken.trans ht.taken,
      WrFrames.take_framed h.framed hw.busy (frameDone_more hl hopen (.inr hmore)), ht.room, ht.stores,
      hflags (.inl hstate), ht.legal, .write d left hstate
      ⟨hw.busy, ⟨?_, fun hpos => ?_, ?_, hw.covered.lt⟩, hcount', ⟨?_, ?_⟩, ?_, ?_, ?_⟩⟩
    · show (x.engine.regNext i).opWordCountReg =
        d.len - c.axiStrbWidth * ((g.current ++ [i.sAxisWriteData]).length + (left + 1))
      rw [hop', hsame]
      exact hw.covered.op
    · have hpos' : 0 < (x.engine.regNext i).opWordCountReg := hpos
      rw [hop'] at hpos'
      show (x.engine.regNext i).addrReg % _ = (_ + _ * ((g.current ++ [i.sAxisWriteData]).length + (left + 1))) % _
      rw [haddr', hsame]
      exact hw.covered.addr hpos'
    · exact hoff'.trans hw.covered.offset
    · show (x.engine.regNext i).inputActiveReg = true
      rw [hact', hl]
      simp [AxiDmaWrState.inputActiveNext, hw.input]
    · show (x.engine.regNext i).inputCycleCountReg = left
      rw [hcnt', AxiDmaWrState.inputCycleCountNext, hw.input.1, if_pos rfl, hw.input.2, ← hw.counting.count, ← hout',
        hcount'.count]
    · show (x.engine.regNext i).lastTransferReg = decide ((x.engine.regNext i).opWordCountReg = 0)
      rw [hlt', hop']
      exact hw.lastTransfer
    · show c.axiStrbWidth * ((g.current ++ [i.sAxisWriteData]).length + left) < d.len
      rw [hlen, Nat.add_assoc, Nat.add_comm 1 left]
      exact hw.within
    · show (x.step i).words.drop _ = c.wordAddrs (_ + _ * (g.current ++ [i.sAxisWriteData]).length) (left + 1)
      have hnext := congrArg List.tail hw.words
      rw [AxiConfig.wordAddrs_succ, List.tail_drop, List.tail_cons] at hnext
      rw [words_same ht.startsBurst, news_one ht.wvalid, List.length_append, List.length_singleton, hnext, hlen,
        Nat.mul_succ, Nat.add_assoc]

theorem Inv.write_step (hin : InputOk i) (h : Inv x g q) (hs : x.engine.reg.stateReg = .write)
    (hw : Writing x g (x.made q).length d left) : ∃ g', Next x i g g' q := by
  cases hd : x.engine.dataAccept i with
  | false =>
    have hnone : x.engine.writes i = false := by simp [AxiDmaWrState.writes, hs, hw.input.1, hd]
    exact ⟨g, h.write_wait hs hw hnone hd⟩
  | true =>
    have ht := h.taking hin hs hw hd
    cases left with
    | zero => exact h.write_last hs hw ht
    | succ left => exact h.write_more hs hw ht

end Write

/-! ### `STATE_FINISH_BURST` and `STATE_DROP_DATA` -/

lemma zero_ineffective {n : ℕ} (a : ℕ) (data : Bytes n) : (CardStore.mk a data fun _ => false).effective = false := by
  simp [CardStore.effective]

theorem Inv.finish_step (h : Inv x g q) {left : ℕ} (hs : x.engine.reg.stateReg = .finishBurst)
    (hbusy : g.busy = none) (hcount : Counting x.engine.reg left) : ∃ g', Next x i g g' q := by
  have hw : x.engine.writes i = false := x.engine.writes_eq_false i (by simp [hs])
  have hb : x.engine.startsBurst i = false := startsBurst_false (by simp [hs])
  have ha : x.engine.descAccept i = false := h.descAccept_false (by simp [hs])
  have hd : x.engine.dataAccept i = false := h.dataAccept_false (by simp [hs]) (by simp [hs])
  have hv : x.engine.wvalidInt i = x.engine.wreadyInt := by simp [AxiDmaWrState.wvalidInt, hw, hs]
  have hstate := x.engine.stateReg_finishBurst i hs
  have hlegal : ∀ b ∈ (x.step i).bursts, b.Legal c.toAxiConfig := by
    rw [bursts_same hb]
    exact h.legal
  have hroom : x.engine.wvalidInt i = true → asks x.engine = true ∨ x.engine.out.outFifoHalfFullReg = false := by
    rw [hv]
    exact fun hr => .inr (by simpa [AxiDmaWrState.wreadyInt] using hr)
  cases hr : x.engine.wreadyInt with
  | false =>
    rw [hr] at hv
    rw [hr, Bool.false_and, if_neg Bool.false_ne_true] at hstate
    have hreg : x.engine.regNext i = x.engine.defaultNext i := by
      simp [AxiDmaWrState.regNext, hs, AxiDmaWrState.finishBurstNext, hr]
    have hcount' : Counting (x.engine.regNext i) left := by
      rw [hreg]
      exact ⟨hcount.count, hcount.last, hcount.lt⟩
    refine ⟨g, by simp [ha], by simp [hd], h.framed, hroom, ?_, ?_, hlegal, .finishBurst left hstate hbusy hcount'⟩
    · rw [words_same hb, news_nil hv, List.append_nil]
      exact h.stores
    · have hflags := h.flags
      rw [flagsLeft_count (.inr hs) hcount] at hflags
      rw [bursts_same hb, news_nil hv, List.append_nil, flagsLeft_count (.inr hstate) hcount']
      exact hflags
  | true =>
    rw [hr] at hv
    rw [hr, Bool.true_and, hcount.last] at hstate
    have hbeat : x.engine.beatInt i = ⟨fun _ => 0, fun _ => false, x.engine.reg.outputLastCycleReg⟩ := by
      simp [AxiDmaWrState.beatInt, hs]
    have hflags := fun l (hl : List.replicate left false ++ [true] = decide (left = 0) :: l) =>
      h.beat_flags (.inr hs) hcount hv (by rw [hbeat]) hl
    -- the beat fills the burst up and writes nothing
    have hstores : (storesOf (x.step i).words (x.made q ++ news x.engine i)).filter CardStore.effective =
        g.stores.filter CardStore.effective := by
      have hmade := h.count
      rw [flagsLeft_count (.inr hs) hcount, List.length_append, List.length_singleton] at hmade
      obtain ⟨a, l, hnext⟩ := List.exists_cons_of_length_pos (l := x.words.drop (x.made q).length)
        (by rw [List.length_drop]; omega)
      rw [words_same hb, news_one hv, storesOf, ZipLog.zipWith_log_snoc hnext, List.filter_append, hbeat]
      simp only [List.filter_cons, zero_ineffective, Bool.false_eq_true, if_false, List.filter_nil, List.append_nil]
      exact h.stores
    cases left with
    | zero =>
      rw [decide_eq_true rfl, if_pos rfl] at hstate
      refine ⟨g, by simp [ha], by simp [hd], h.framed, hroom, hstores, ?_, hlegal, .idle hstate hbusy⟩
      rw [bursts_same hb, flagsLeft_nil (by simp [hstate]) (by simp [hstate])]
      exact hflags [] rfl
    | succ left =>
      rw [decide_eq_false (Nat.succ_ne_zero left), if_neg Bool.false_ne_true] at hstate
      have hcount' : Counting (x.engine.regNext i) left := by
        apply hcount.next (c := c) <;> simp [AxiDmaWrState.regNext, hs, AxiDmaWrState.finishBurstNext, hr]
      refine ⟨g, by simp [ha], by simp [hd], h.framed, hroom, hstores, ?_, hlegal,
        .finishBurst left hstate hbusy hcount'⟩
      rw [bursts_same hb, flagsLeft_count (.inr hstate) hcount']
      exact hflags _ rfl

theorem Inv.drop_step (h : Inv x g q) {d : AxiDesc} (hs : x.engine.reg.stateReg = .dropData) (hbusy : g.busy = some d)
    (hlast : c.axisLastEnable = true) (hpast : Chunks.count c.axiStrbWidth d.len ≤ g.current.length)
    (hready : x.engine.reg.sAxisWriteDataTreadyReg = true) : ∃ g', Next x i g g' q := by
  have hv : x.engine.wvalidInt i = false := wvalid_false (by simp [hs]) (by simp [hs])
  have hb : x.engine.startsBurst i = false := startsBurst_false (by simp [hs])
  have ha : x.engine.descAccept i = false := h.descAccept_false (by simp [hs])
  have hd : x.engine.dataAccept i = i.sAxisWriteDataTvalid := by simp [AxiDmaWrState.dataAccept, hready]
  have hstate := x.engine.stateReg_dropData i hs
  have hopen := h.framed.busy d hbusy
  have hlegal : ∀ b ∈ (x.step i).bursts, b.Legal c.toAxiConfig := by
    rw [bursts_same hb]
    exact h.legal
  have hflags : (x.engine.regNext i).stateReg ≠ .write → (x.engine.regNext i).stateReg ≠ .finishBurst →
      (x.made q ++ news x.engine i).map WBeat.wlast ++ flagsLeft (x.engine.regNext i) =
        (x.step i).bursts.flatMap AxiBurst.lastFlags := by
    intro hw hf
    have hflags := h.flags
    rw [flagsLeft_nil (by simp [hs]) (by simp [hs])] at hflags
    rw [bursts_same hb, news_nil hv, List.append_nil, flagsLeft_nil hw hf]
    exact hflags
  have hstores : (storesOf (x.step i).words (x.made q ++ news x.engine i)).filter CardStore.effective =
      g.stores.filter CardStore.effective := by
    rw [words_same hb, news_nil hv, List.append_nil]
    exact h.stores
  have hstay : (i.sAxisWriteDataTvalid && AxiDmaWrState.shiftAxisTlast i) = false →
      (x.engine.regNext i).sAxisWriteDataTreadyReg = true := by
    intro hl
    simp [AxiDmaWrState.regNext, hs, AxiDmaWrState.dropDataNext, hl]
  cases hvalid : i.sAxisWriteDataTvalid with
  | false =>
    rw [hvalid] at hd hstate hstay
    rw [Bool.false_and, if_neg Bool.false_ne_true] at hstate
    exact ⟨g, by simp [ha], by simp [hd], h.framed, by simp [hv], hstores, hflags (by simp [hstate]) (by simp [hstate]),
      hlegal, .dropData d hstate hbusy hlast hpast (hstay rfl)⟩
  | true =>
    rw [hvalid] at hd hstate hstay
    rw [Bool.true_and] at hstate hstay
    cases hl : AxiDmaWrState.shiftAxisTlast i with
    | true =>
      rw [hl, if_pos rfl] at hstate
      refine ⟨g.finish d i.sAxisWriteData, ?_, ?_, WrFrames.finish_framed h.framed hbusy (frameDone_last hl),
        by simp [hv], ?_, hflags (by simp [hstate]) (by simp [hstate]), hlegal, .idle hstate rfl⟩
      · rw [WrFrames.finish_accepted hbusy, ha, if_neg Bool.false_ne_true, List.append_nil]
      · rw [WrFrames.finish_taken, if_pos hd]
      · rw [WrFrames.finish_stores hbusy, WrFrames.take_stores_full hbusy hpast]
        exact hstores
    | false =>
      rw [hl, if_neg Bool.false_ne_true] at hstate
      refine ⟨g.take i.sAxisWriteData, ?_, ?_, WrFrames.take_framed h.framed hbusy (frameDone_more hl hopen (.inl hlast)),
        by simp [hv], ?_, hflags (by simp [hstate]) (by simp [hstate]), hlegal,
        .dropData d hstate hbusy hlast ?_ (hstay hl)⟩
      · rw [ha, if_neg Bool.false_ne_true, List.append_nil]
        rfl
      · rw [WrFrames.take_taken, if_pos hd]
      · rw [WrFrames.take_stores_full hbusy hpast]
        exact hstores
      · show _ ≤ (g.current ++ [i.sAxisWriteData]).length
        rw [List.length_append]
        omega

/-! ### Runs -/

theorem Inv.next (hin : InputOk i) (h : Inv x g q) : ∃ g', Next x i g g' q := by
  cases h.phase with
  | idle hs hbusy => exact h.idle_step hin hs hbusy
  | start d hs hbusy hcov hmore => exact h.start_step hs hbusy hcov hmore
  | write d left hs hw => exact h.write_step hin hs hw
  | finishBurst left hs hbusy hcount => exact h.finish_step hs hbusy hcount
  | dropData d hs hbusy hlast hpast hready => exact h.drop_step hs hbusy hlast hpast hready

/-- The writer between two descriptors, with all write responses back. -/
structure Quiet (s : AxiDmaWrState c) : Prop where
  state : s.reg.stateReg = .idle
  awvalid : s.reg.mAxiAwvalidReg = false
  tready : s.reg.sAxisWriteDataTreadyReg = false
  active : s.status.activeCountReg = 0
  av : s.status.activeCountAvReg = true
  rd_lt : s.status.statusFifoRdPtrReg < 64
  wr : s.status.statusFifoWrPtrReg = s.status.statusFifoRdPtrReg
  bready : s.status.mAxiBreadyReg = false
  outFifo : s.out.Stores AxiDmaWrState.outputFifoAddrWidth []
  outValid : s.out.outValidReg = false

lemma reset_quiet (c : AxiDmaWrConfig) : Quiet (AxiDmaWrState.reset c) :=
  ⟨rfl, rfl, rfl, rfl, rfl, (show 0 < 64 by norm_num), rfl, rfl, OutFifo.reset_stores _, rfl⟩

theorem Inv.init {s : AxiDmaWrState c} (h : Quiet s) (i : ℕ → AxiDmaWrInput c) : Inv (run s i 0) ⟨[], none, []⟩ [] := by
  have hbursts : (run s i 0).bursts = [] := by simp [run, bursts, presented, h.awvalid]
  have hmade : (run s i 0).made [] = [] := by simp [run, made, OutFifo.pending, h.outValid]
  have hwriting : writing s = 0 := by simp [writing, h.state]
  refine ⟨rfl, rfl, ⟨fun p hp => absurd hp List.not_mem_nil, fun _ => rfl, fun d hd => (by cases hd)⟩, ?_, ?_, ?_, ?_,
    fun _ => h.state, fun ht => ?_, ?_, .idle h.state rfl⟩
  · exact ⟨h.outFifo, Nat.zero_le _, fun _ => Nat.zero_le _, fun _ => Nat.zero_le _⟩
  · rw [hmade, storesOf, List.zipWith_nil_right]
    rfl
  · rw [hmade, hbursts, flagsLeft_nil (by simp [run, h.state]) (by simp [run, h.state])]
    rfl
  · rw [hbursts]
    exact fun b hb => absurd hb List.not_mem_nil
  · exact absurd (h.tready.symm.trans ht) Bool.false_ne_true
  · rw [hbursts]
    refine ⟨?_, ?_, ?_, ?_, h.rd_lt, ?_, fun hb => ?_⟩
    · simp [run, h.active]
    · simp [run, h.active]
    · simp [run, h.active, h.av]
    · simp [run, hwriting]
    · simp [run, h.active, h.wr, Nat.mod_eq_of_lt h.rd_lt]
    · exact absurd (h.bready.symm.trans hb) Bool.false_ne_true

/-- The beats made so far. -/
def madeLog (s : AxiDmaWrState c) (i : ℕ → AxiDmaWrInput c) : ℕ → List (WBeat c.axiStrbWidth)
  | 0 => []
  | t + 1 => madeLog s i t ++ news (run s i t).engine (i t)

theorem Inv.run {s : AxiDmaWrState c} {i : ℕ → AxiDmaWrInput c} (hquiet : Quiet s) (hin : ∀ t, InputOk (i t))
    (t : ℕ) : ∃ g q, Inv (run s i t) g q ∧ (AxiDmaWrSystem.run s i t).made q = madeLog s i t := by
  induction t with
  | zero => exact ⟨_, _, Inv.init hquiet i, by simp [AxiDmaWrSystem.run, made, madeLog, OutFifo.pending, hquiet.outValid]⟩
  | succ t ih =>
    obtain ⟨g, q, h, hmade⟩ := ih
    obtain ⟨g', hnext⟩ := h.next (hin t)
    exact ⟨g', _, h.of_next hnext, (made_step h.room.stores).trans (by rw [hmade]; rfl)⟩

end AxiDmaWrSystem

end FpgaPcie
