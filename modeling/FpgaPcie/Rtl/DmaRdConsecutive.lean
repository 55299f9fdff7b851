import FpgaPcie.Lib.Progress
import FpgaPcie.Rtl.DmaRdChain

/-!
# When consecutive descriptors work

The output FSM has emitted all beats of a descriptor only when the receive FSM has stored them all, so
that an idle output FSM finds the data FIFOs empty and the receive FSM idle. A descriptor that is
taken then runs on its own, whatever the completions, the two ports and the configuration are.
-/

namespace FpgaPcie

variable {c : RdConfig}

/-! ### The invariant -/

/-- The position of the FSMs in the transfer under way. An output FSM that was started by the level of
the start input stands in START with nothing to do. -/
structure ServeInv (x : RdChain c) : Prop where
  lengthReg : x.engine.req.descTxRdReqLengthReg = x.current.length
  reqIdle : x.engine.req.reqStateReg = .idle → x.engine.req.descTxRdReqStartReg = false
  first : x.engine.req.descTxRdReqStartReg = true → x.engine.recv.recvStateReg = .idle ∧
    0 < beatCycles c x.current.length ∧ x.current.stored = []
  receiving : x.engine.recv.recvStateReg = .start →
    x.engine.recv.cplTrCycleReg = beatCycles c x.current.length ∧
    x.engine.recv.cplOpCycleReg = x.current.stored.length ∧
    x.current.stored.length < beatCycles c x.current.length
  received : x.engine.recv.recvStateReg = .idle → x.engine.req.descTxRdReqStartReg = false →
    x.current.stored.length = beatCycles c x.current.length
  emitting : x.engine.tr.trStateReg = .start →
    x.current.emitted.length = beatCycles c x.current.length ∨
    x.current.emitted.length < beatCycles c x.current.length ∧
      x.engine.tr.outputCycleReg = beatCycles c x.current.length - x.current.emitted.length
  allEmitted : x.engine.tr.trStateReg = .idle →
    x.current.emitted.length = beatCycles c x.current.length

/-- The words emitted and the words on their way are words that were stored. -/
structure WordsInv (x : RdChain c) : Prop where
  flags : x.current.beats.map (fun beat => (beat.tkeep, beat.tlast)) =
    (List.range x.current.emitted.length).map x.current.flags
  words : ∀ tag, (TaggedLog.words tag x.current.emittedWords ++ x.engine.arrivedWords tag).Sublist
    (TaggedLog.words tag x.current.stored)

/-- Where the read pointer stands, when beats of these tags have been emitted. -/
structure TurnInv (s : RdState c) (tags : List ℕ) : Prop where
  inTurn : InTurn (2 ^ c.pcieTagWidth) tags
  first : tags = [] → s.tag.opTagFifoRdptr = 0 ∧ s.tag.opTagFifoRd = false
  last : ∀ t ∈ tags.getLast?, s.tag.opTagFifoRdptr = t ∨
    s.tag.opTagFifoRdptr = (t + 1) % 2 ^ c.pcieTagWidth ∧ s.tag.opTagFifoRd = false
  waiting : s.tr.cpldDataFifoRdEnReg s.tag.opTagFifoRdptr = true →
    s.tag.opTagFifoRdptr ∈ tags.getLast? ∨ s.emit = true

/-- The output FIFO never overflows. -/
structure StreamInv (x : RdChain c) (q : List (AxisBeat c.busBytes)) : Prop where
  stores : x.engine.out.Stores outputFifoAddrWidthRd q
  length_le : q.length ≤ 34
  not_half : x.engine.out.outFifoHalfFullReg = false → q.length ≤ 32
  rdEn : ∀ tag, x.engine.tr.cpldDataFifoRdEnReg tag = true → q.length ≤ 33
  stream : x.delivered ++ x.engine.out.pending q = x.stream

/-! ### The output FIFO -/

section Stream

variable {x : RdChain c} {i : RdInput c} {q : List (AxisBeat c.busBytes)}

lemma RdChain.stream_step : (x.step i).stream = x.stream ++ if x.engine.emit then
    [x.engine.newBeat i] else [] := by
  have hbeats : (x.advanced i).beats = x.current.beats ++ if x.engine.emit then
      [x.engine.newBeat i] else [] := by
    cases he : x.engine.emit <;> simp [RdChain.advanced, RdChain.emittedNow, Transfer.beats, he]
  cases ht : x.engine.req.take i with
  | false => simp [RdChain.stream, RdChain.step, ht, hbeats]
  | true =>
    have hnew : (Transfer.mk (c := c) i.descTxRdReqAddress i.descTxRdReqLength [] []).beats = [] := rfl
    simp [RdChain.stream, RdChain.step, ht, hbeats, hnew]

theorem StreamInv.step (h : StreamInv x q) : StreamInv (x.step i) (x.engine.queueNext i q) := by
  obtain ⟨hstores, hlen, hhalf, hen⟩ := OutRoom.step (i := i) ⟨h.stores, h.length_le, h.not_half, h.rdEn⟩
  refine ⟨hstores, hlen, hhalf, hen, ?_⟩
  have hpend := OutFifo.step_pending h.stores x.engine.emit (x.engine.newBeat i) i.mAxisTlpTready
  rw [RdChain.stream_step, ← h.stream, List.append_assoc, ← hpend, ← List.append_assoc]
  rfl

end Stream

/-! ### The words of a transfer -/

section Words

variable {x : RdChain c} {i : RdInput c}

lemma words_storedNow (tag : ℕ) : TaggedLog.words tag (x.storedNow i) =
    if x.engine.stores i tag then [i.rxCplTlpData] else [] := by
  unfold RdChain.storedNow RdState.stores
  cases hs : x.engine.recv.recvStateReg == .start && x.engine.cplAccept i with
  | false => simp
  | true =>
    simp only [if_true, TaggedLog.words_singleton, Bool.true_and, beq_iff_eq]
    exact if_congr eq_comm rfl rfl

/-- What a data FIFO holds after a clock edge and what leaves it as a beat were there before. -/
lemma cpldFifo_sublist (s : RdState c) (tag : ℕ) :
    ((if s.emit ∧ s.tag.opTagFifoRdptr = tag then [((s.cpldDataFifo s.tag.opTagFifoRdptr).words.head?).getD fun _ => 0]
      else []) ++ (cpldFifoStep s tag).words).Sublist (s.arrivedWords tag) := by
  have hclock := (s.cpldDataFifo tag).clock_sublist
    (if s.recv.cpldDataFifoWrEnReg tag then [s.recv.cpldDataFifoDinReg tag] else [])
    (s.tr.cpldDataFifoRdEnReg tag)
  by_cases he : s.emit = true ∧ s.tag.opTagFifoRdptr = tag
  · obtain ⟨hemit, rfl⟩ := he
    obtain ⟨-, hen, hne⟩ := rdEn_of_emit hemit
    rw [if_pos ⟨hemit, rfl⟩]
    rw [hen, if_pos rfl] at hclock
    obtain ⟨w, ws, hw⟩ := List.exists_cons_of_ne_nil hne
    rw [hw, List.tail_cons] at hclock
    simp only [RdState.arrivedWords, hw, List.head?_cons, Option.getD_some, List.cons_append]
    apply List.Sublist.cons_cons
    simpa [cpldFifoStep, hen] using hclock
  · rw [if_neg he, List.nil_append]
    apply hclock.trans
    apply List.Sublist.append_right
    split
    · exact List.tail_sublist _
    · exact List.Sublist.refl _

lemma arrivedWords_step (tag : ℕ) : (rdStep x.engine i).arrivedWords tag =
    (cpldFifoStep x.engine tag).words ++ TaggedLog.words tag (x.storedNow i) := by
  rw [words_storedNow]
  cases hs : x.engine.stores i tag <;> simp [RdState.arrivedWords, rdStep, recvStep, hs]

lemma words_advanced (h : WordsInv x) (tag : ℕ) :
    (TaggedLog.words tag (x.advanced i).emittedWords ++ (rdStep x.engine i).arrivedWords tag).Sublist
      (TaggedLog.words tag (x.advanced i).stored) := by
  have hnow : TaggedLog.words tag ((x.emittedNow i).map fun e => (e.1, e.2.tdata)) =
      if x.engine.emit ∧ x.engine.tag.opTagFifoRdptr = tag then
        [((x.engine.cpldDataFifo x.engine.tag.opTagFifoRdptr).words.head?).getD fun _ => 0] else [] := by
    cases he : x.engine.emit with
    | false => simp [RdChain.emittedNow, he]
    | true => simp [RdChain.emittedNow, he, RdState.newBeat, axisInit]
  have hword : TaggedLog.words tag (x.advanced i).emittedWords = TaggedLog.words tag x.current.emittedWords ++
      TaggedLog.words tag ((x.emittedNow i).map fun e => (e.1, e.2.tdata)) := by
    simp [RdChain.advanced, Transfer.emittedWords]
  have hfifo := cpldFifo_sublist x.engine tag
  rw [← hnow] at hfifo
  rw [hword, arrivedWords_step, ← List.append_assoc, List.append_assoc (TaggedLog.words tag x.current.emittedWords),
    RdChain.advanced, TaggedLog.words_append]
  exact ((hfifo.append_left _).trans (h.words tag)).append_right _

end Words

/-! ### The output FSM -/

section Output

variable {x : RdChain c} {i : RdInput c}

lemma ServeInv.stored_le (h : ServeInv x) : x.current.stored.length ≤ beatCycles c x.current.length := by
  cases hr : x.engine.recv.recvStateReg with
  | start => exact (h.receiving hr).2.2.le
  | idle =>
    cases hs : x.engine.req.descTxRdReqStartReg with
    | false => exact (h.received hr hs).le
    | true => simp [(h.first hs).2.2]

/-- When all beats have been emitted, no word is left and every word that was stored has been
emitted. -/
lemma ServeInv.drained (h : ServeInv x) (hw : WordsInv x)
    (hall : x.current.emitted.length = beatCycles c x.current.length) (tag : ℕ) :
    x.engine.arrivedWords tag = [] ∧
      TaggedLog.words tag x.current.emittedWords = TaggedLog.words tag x.current.stored := by
  apply TaggedLog.eq_of_length_le hw.words
  rw [Transfer.emittedWords, List.length_map, hall]
  exact h.stored_le

lemma ServeInv.of_words (h : ServeInv x) (hw : WordsInv x) (htr : x.engine.tr.trStateReg = .start) {tag : ℕ}
    (hne : (x.engine.cpldDataFifo tag).words ≠ []) :
    x.current.emitted.length < beatCycles c x.current.length ∧
      x.engine.tr.outputCycleReg = beatCycles c x.current.length - x.current.emitted.length := by
  rcases h.emitting htr with hall | hrun
  · have hnil := (h.drained hw hall tag).1
    exact absurd (List.append_eq_nil_iff.mp hnil).1 hne
  · exact hrun

lemma ServeInv.of_emit (h : ServeInv x) (hw : WordsInv x) (he : x.engine.emit = true) :
    x.current.emitted.length < beatCycles c x.current.length ∧
      x.engine.tr.outputCycleReg = beatCycles c x.current.length - x.current.emitted.length :=
  h.of_words hw (rdEn_of_emit he).1 (rdEn_of_emit he).2.2

lemma beatCycles_lt (length : ℕ) : beatCycles c length < 2 ^ 32 := Nat.mod_lt _ (by norm_num)

lemma ServeInv.outputCycle_emit (h : ServeInv x) (hw : WordsInv x) (he : x.engine.emit = true) (lengthNext : ℕ) :
    x.engine.outputCycleNext i lengthNext =
      beatCycles c x.current.length - (x.current.emitted.length + 1) := by
  obtain ⟨hlt, hcycle⟩ := h.of_emit hw he
  have hbound := beatCycles_lt (c := c) x.current.length
  simp only [RdState.outputCycleNext, (rdEn_of_emit he).1, he, if_true, hcycle]
  omega

lemma outputCycle_wait {s : RdState c} (htr : s.tr.trStateReg = .start) (he : s.emit = false) (lengthNext : ℕ) :
    s.outputCycleNext i lengthNext = s.tr.outputCycleReg := by
  simp [RdState.outputCycleNext, htr, he]

lemma length_advanced : (x.advanced i).emitted.length = x.current.emitted.length + x.engine.emit.toNat := by
  cases he : x.engine.emit <;> simp [RdChain.advanced, RdChain.emittedNow, he]

lemma axisTkeepInit_apply (length : ℕ) (j : Fin c.busBytes) : axisTkeepInit c length j =
    decide (length % c.busBytes = 0 ∨ j < length % c.busBytes) := by
  unfold axisTkeepInit
  by_cases hz : length % 2 ^ c.offsetWidth = 0
  · simp [hz]
  · rw [if_neg hz, Nat.shiftLeft_eq, Nat.one_mul, Nat.testBit_two_pow_sub_one]
    simp [hz]

lemma ServeInv.newBeat_flags (h : ServeInv x) (hw : WordsInv x) (he : x.engine.emit = true) :
    ((x.engine.newBeat i).tkeep, (x.engine.newBeat i).tlast) = x.current.flags x.current.emitted.length := by
  have hlt := (h.of_emit hw he).1
  have hout := h.outputCycle_emit (i := i) hw he
  have hlast : (beatCycles c x.current.length - (x.current.emitted.length + 1) = 0) ↔
      x.current.emitted.length + 1 = beatCycles c x.current.length := by omega
  simp only [RdState.newBeat, axisInit, hout, h.lengthReg, Transfer.flags, hlast, Bool.beq_eq_decide_eq,
    Prod.mk.injEq, and_true]
  funext j
  by_cases hl : x.current.emitted.length + 1 = beatCycles c x.current.length
  · simp [hl, axisTkeepInit_apply]
  · simp [hl]

lemma WordsInv.flags_advanced (h : ServeInv x) (hw : WordsInv x) :
    (x.advanced i).beats.map (fun beat => (beat.tkeep, beat.tlast)) =
      (List.range (x.advanced i).emitted.length).map (x.advanced i).flags := by
  rw [length_advanced]
  cases he : x.engine.emit with
  | false =>
    have hbeats : (x.advanced i).beats = x.current.beats := by
      simp [RdChain.advanced, RdChain.emittedNow, Transfer.beats, he]
    rw [hbeats, hw.flags]
    rfl
  | true =>
    have hnew := h.newBeat_flags (i := i) hw he
    rw [Bool.toNat_true, List.range_succ, List.map_append]
    have hbeats : (x.advanced i).beats = x.current.beats ++ [x.engine.newBeat i] := by
      simp [RdChain.advanced, RdChain.emittedNow, Transfer.beats, he]
    rw [hbeats, List.map_append, hw.flags, List.map_singleton, hnew]
    rfl

lemma ServeInv.tr_next (h : ServeInv x) (hw : WordsInv x) (htr : x.engine.tr.trStateReg = .start) :
    ((rdStep x.engine i).tr.trStateReg = .start →
      (x.advanced i).emitted.length = beatCycles c x.current.length ∨
      (x.advanced i).emitted.length < beatCycles c x.current.length ∧
        (rdStep x.engine i).tr.outputCycleReg =
          beatCycles c x.current.length - (x.advanced i).emitted.length) ∧
    ((rdStep x.engine i).tr.trStateReg = .idle →
      (x.advanced i).emitted.length = beatCycles c x.current.length) := by
  rw [length_advanced]
  cases he : x.engine.emit with
  | true =>
    obtain ⟨hlt, -⟩ := h.of_emit hw he
    have hout := h.outputCycle_emit (i := i) hw he
    rw [Bool.toNat_true]
    constructor
    · intro htr'
      simp only [rdStep, trStep, trStateNext, htr, hout] at htr' ⊢
      split_ifs at htr'
      exact .inr ⟨by omega, trivial⟩
    · intro htr'
      simp only [rdStep, trStep, trStateNext, htr, hout] at htr'
      split_ifs at htr'
      omega
  | false =>
    have hout := fun l => outputCycle_wait (i := i) htr he l
    rw [Bool.toNat_false, Nat.add_zero]
    constructor
    · intro _
      simpa [rdStep, trStep, hout] using h.emitting htr
    · intro htr'
      rcases h.emitting htr with hall | ⟨hlt, hcycle⟩
      · exact hall
      · simp only [rdStep, trStep, trStateNext, htr, hout, hcycle] at htr'
        split_ifs at htr'
        omega

lemma ServeInv.waits (h : ServeInv x) (hw : WordsInv x) {tag : ℕ} (htr : x.engine.tr.trStateReg = .start)
    (he : x.engine.emit = false) (hne : (x.engine.cpldDataFifo tag).words ≠ []) :
    (rdStep x.engine i).tr.trStateReg = .start := by
  obtain ⟨hlt, hcycle⟩ := h.of_words hw htr hne
  have hpos : ¬(beatCycles c x.current.length - x.current.emitted.length = 0) := by omega
  simp only [rdStep, trStep, trStateNext, htr, outputCycle_wait htr he, hcycle, if_neg hpos]

end Output

/-! ### The read pointer -/

section Turns

variable {x : RdChain c} {i : RdInput c}

lemma not_leaves_of_not_take {s : RdState c} (ht : s.req.take i = false) :
    ¬(s.req.reqStateReg = .idle ∧ s.req.reqStateReg ≠
      (reqNext c s.req i s.tag.opTagFifoWe s.tag.opTagFifoWrTag).reqStateReg) := by
  rintro ⟨hs, hne⟩
  rw [reqNext_idle hs ht] at hne
  exact hne rfl

lemma InTurn.snoc {m p : ℕ} {tags : List ℕ} (h : InTurn m tags) (hfirst : tags = [] → p = 0)
    (hlast : ∀ t ∈ tags.getLast?, p = t ∨ p = (t + 1) % m) : InTurn m (tags ++ [p]) := by
  constructor
  · cases tags with
    | nil => simpa using hfirst rfl
    | cons t ts => simpa using h.first
  · rw [List.isChain_append]
    refine ⟨h.turns, List.isChain_singleton p, fun t ht b hb => ?_⟩
    rw [List.head?_singleton, Option.mem_some_iff] at hb
    subst hb
    exact hlast t ht

lemma tags_advanced : (x.advanced i).tags = x.current.tags ++ if x.engine.emit then
    [x.engine.tag.opTagFifoRdptr] else [] := by
  cases he : x.engine.emit <;> simp [RdChain.advanced, RdChain.emittedNow, Transfer.tags, he]

/-- The read pointer moves on only behind a beat of its tag. -/
theorem TurnInv.step (hs : ServeInv x) (hw : WordsInv x) (ht : x.engine.req.take i = false)
    (h : TurnInv x.engine x.current.tags) : TurnInv (rdStep x.engine i) (x.advanced i).tags := by
  have hrdptr : (rdStep x.engine i).tag.opTagFifoRdptr = if x.engine.tag.opTagFifoRd then
      (x.engine.tag.opTagFifoRdptr + 1) % 2 ^ c.pcieTagWidth else x.engine.tag.opTagFifoRdptr := by
    simp only [rdStep, tagStep, if_neg (not_leaves_of_not_take ht)]
  have hrd : (rdStep x.engine i).tag.opTagFifoRd = true → x.engine.tag.opTagFifoRd = false ∧
      x.engine.tr.cpldDataFifoRdEnReg x.engine.tag.opTagFifoRdptr = true := by
    simp only [rdStep, tagStep, if_neg (not_leaves_of_not_take ht)]
    cases x.engine.tag.opTagFifoRd <;> simp +contextual
  rw [tags_advanced]
  cases he : x.engine.emit with
  | true =>
    -- the last tag is now the tag at the pointer
    have hlast : (x.current.tags ++ [x.engine.tag.opTagFifoRdptr]).getLast? =
        some x.engine.tag.opTagFifoRdptr := List.getLast?_concat
    simp only [if_true]
    refine ⟨h.inTurn.snoc (fun hnil => (h.first hnil).1) fun t hl => (h.last t hl).imp_right And.left,
      fun hnil => by simp at hnil, fun t hl => ?_, fun hen => .inl ?_⟩
    · rw [hlast, Option.mem_some_iff] at hl
      subst hl
      rw [hrdptr]
      cases hr : x.engine.tag.opTagFifoRd with
      | false => exact .inl rfl
      | true =>
        refine .inr ⟨rfl, ?_⟩
        by_contra hrd'
        have := (hrd (by simpa using hrd')).1
        rw [hr] at this
        cases this
    · rw [hlast, Option.mem_some_iff, (rdEnNext_words hen).1]
  | false =>
    simp only [Bool.false_eq_true, if_false, List.append_nil]
    -- no beat leaves, so the pointer can only be released for the last tag
    have hen_last : x.engine.tr.cpldDataFifoRdEnReg x.engine.tag.opTagFifoRdptr = true →
        x.engine.tag.opTagFifoRdptr ∈ x.current.tags.getLast? := by
      intro hen
      rcases h.waiting hen with hl | hemit
      · exact hl
      · rw [he] at hemit
        cases hemit
    refine ⟨h.inTurn, fun hnil => ?_, fun t hl => ?_, fun hen => ?_⟩
    · obtain ⟨hzero, hlow⟩ := h.first hnil
      refine ⟨by rw [hrdptr, hlow]; exact hzero, ?_⟩
      by_contra hrd'
      have hl := hen_last (hrd (by simpa using hrd')).2
      rw [hnil] at hl
      cases hl
    · rw [hrdptr]
      cases hr : x.engine.tag.opTagFifoRd with
      | false =>
        rcases h.last t hl with hp | ⟨hp, -⟩
        · exact .inl hp
        · cases hrd' : (rdStep x.engine i).tag.opTagFifoRd with
          | false => exact .inr ⟨hp, rfl⟩
          | true =>
            have hl' := hen_last (hrd hrd').2
            rw [Option.mem_def] at hl hl'
            rw [hl] at hl'
            exact .inl (Option.some.inj hl').symm
      | true =>
        rcases h.last t hl with hp | ⟨-, hlow⟩
        · refine .inr ⟨by rw [if_pos rfl, hp], ?_⟩
          by_contra hrd'
          have := (hrd (by simpa using hrd')).1
          rw [hr] at this
          cases this
        · rw [hr] at hlow
          cases hlow
    · obtain ⟨hptr, -, hne⟩ := rdEnNext_words hen
      have htr : x.engine.tr.trStateReg = .start := by
        cases htr : x.engine.tr.trStateReg with
        | start => rfl
        | idle => simp [rdStep, trStep, rdEnNext, htr] at hen
      have hlow : x.engine.tr.cpldDataFifoRdEnReg x.engine.tag.opTagFifoRdptr = false := by
        by_contra hen'
        rw [Bool.not_eq_false] at hen'
        simp [RdState.emit, htr, hen', hne] at he
      refine .inr ?_
      have hstart := hs.waits (i := i) hw htr he hne
      have hwords : ((rdStep x.engine i).cpldDataFifo x.engine.tag.opTagFifoRdptr).words ≠ [] := by
        simp [rdStep, cpldFifoStep, BoundedQueue.clock, hlow, hne]
      rw [hptr] at hen
      simp [RdState.emit, hstart, hptr, hen, hwords]

end Turns

/-! ### One clock edge -/

section Step

variable {x : RdChain c} {i : RdInput c}

/-- Without a new descriptor the length register is kept and the start register falls. -/
lemma reqNext_of_not_take (r : ReqReg) (we : Bool) (wrTag : ℕ) (ht : r.take i = false)
    (hidle : r.reqStateReg = .idle → r.descTxRdReqStartReg = false) :
    (reqNext c r i we wrTag).descTxRdReqLengthReg = r.descTxRdReqLengthReg ∧
      (reqNext c r i we wrTag).descTxRdReqStartReg = false := by
  cases hs : r.reqStateReg with
  | idle =>
    have hlow : i.descTxRdReqStart = false := by simpa [ReqReg.take, hs, hidle hs] using ht
    simp [reqNext_idle hs ht, hlow]
  | start =>
    cases ha : r.accept i with
    | true => simp [reqNext_accept hs ha]
    | false =>
      cases we with
      | true => simp [reqNext_allocate hs ha]
      | false => simp [reqNext_wait hs ha]

lemma length_stored_advanced : (x.advanced i).stored.length = x.current.stored.length +
    (x.engine.recv.recvStateReg == .start && x.engine.cplAccept i).toNat := by
  cases hs : x.engine.recv.recvStateReg == .start && x.engine.cplAccept i <;>
    simp [RdChain.advanced, RdChain.storedNow, hs]

lemma ServeInv.recv_next (h : ServeInv x) (hr : x.engine.recv.recvStateReg = .start) :
    ((rdStep x.engine i).recv.recvStateReg = .start →
      (rdStep x.engine i).recv.cplTrCycleReg = beatCycles c x.current.length ∧
      (rdStep x.engine i).recv.cplOpCycleReg = (x.advanced i).stored.length ∧
      (x.advanced i).stored.length < beatCycles c x.current.length) ∧
    ((rdStep x.engine i).recv.recvStateReg = .idle →
      (x.advanced i).stored.length = beatCycles c x.current.length) := by
  obtain ⟨htr, hop, hlt⟩ := h.receiving hr
  have hbound := beatCycles_lt (c := c) x.current.length
  have hnext : x.engine.cplOpCycleNext i = (x.advanced i).stored.length := by
    rw [length_stored_advanced]
    cases ha : x.engine.cplAccept i with
    | false => simp [RdState.cplOpCycleNext, hr, ha, hop]
    | true =>
      simp only [RdState.cplOpCycleNext, hr, ha, if_true, hop, beq_self_eq_true, Bool.and_self, Bool.toNat_true]
      omega
  have hle : (x.advanced i).stored.length ≤ x.current.stored.length +
      (x.engine.cplAccept i).toNat := by
    rw [length_stored_advanced, hr]
    simp
  have hlast : x.engine.cplLast i = (x.engine.cplAccept i &&
      decide ((x.advanced i).stored.length = beatCycles c x.current.length)) := by
    simp [RdState.cplLast, hr, hnext, htr]
  cases ha : x.engine.cplAccept i with
  | false =>
    rw [ha, Bool.toNat_false] at hle
    rw [ha, Bool.false_and] at hlast
    constructor
    · intro _
      refine ⟨by simp [rdStep, recvStep, hr, htr], by simp [rdStep, recvStep, hnext], by omega⟩
    · intro hr'
      simp [rdStep, recvStep, hr, hlast] at hr'
  | true =>
    rw [ha, Bool.toNat_true] at hle
    rw [ha, Bool.true_and] at hlast
    constructor
    · intro hr'
      have hne : (x.advanced i).stored.length ≠ beatCycles c x.current.length := by
        intro heq
        simp [rdStep, recvStep, hr, hlast, heq] at hr'
      refine ⟨by simp [rdStep, recvStep, hr, htr], by simp [rdStep, recvStep, hnext], by omega⟩
    · intro hr'
      by_contra hne
      simp [rdStep, recvStep, hr, hlast, hne] at hr'

theorem ServeInv.step (h : ServeInv x) (hw : WordsInv x) (ht : x.engine.req.take i = false) :
    ServeInv (x.step i) := by
  obtain ⟨hlength, hlow⟩ := reqNext_of_not_take _ x.engine.tag.opTagFifoWe x.engine.tag.opTagFifoWrTag ht h.reqIdle
  have hcurrent : (x.step i).current = x.advanced i := by simp [RdChain.step, ht]
  have hsame : (x.advanced i).length = x.current.length := rfl
  constructor
  case lengthReg =>
    rw [hcurrent, hsame, ← h.lengthReg]
    exact hlength
  case reqIdle => exact fun _ => hlow
  case first =>
    intro hs
    rw [RdChain.step] at hs
    exact absurd hs (by simp [rdStep, hlow])
  case receiving =>
    rw [hcurrent, hsame]
    cases hr : x.engine.recv.recvStateReg with
    | start => exact (h.recv_next hr).1
    | idle =>
      intro hr'
      have hfirst : x.engine.req.descTxRdReqStartReg = true := by
        by_contra hs
        rw [Bool.not_eq_true] at hs
        simp [RdChain.step, rdStep, recvStep, recvStart, hr, hs] at hr'
      obtain ⟨-, hpos, hnil⟩ := h.first hfirst
      have hadv : (x.advanced i).stored = [] := by simp [RdChain.advanced, RdChain.storedNow, hr, hnil]
      rw [hadv]
      refine ⟨?_, ?_, hpos⟩
      · simp [RdChain.step, rdStep, recvStep, recvStart, hr, hfirst, hlow, hlength, h.lengthReg]
      · simp [RdChain.step, rdStep, recvStep, RdState.cplOpCycleNext, hr]
  case received =>
    rw [hcurrent, hsame]
    cases hr : x.engine.recv.recvStateReg with
    | start => exact fun hr' _ => (h.recv_next hr).2 hr'
    | idle =>
      intro hr' _
      have hlow' : x.engine.req.descTxRdReqStartReg = false := by
        by_contra hs
        rw [Bool.not_eq_false] at hs
        simp [RdChain.step, rdStep, recvStep, recvStart, hr, hs, hlow] at hr'
      simpa [RdChain.advanced, RdChain.storedNow, hr] using h.received hr hlow'
  case emitting =>
    rw [hcurrent, hsame]
    cases htr : x.engine.tr.trStateReg with
    | start => exact (h.tr_next hw htr).1
    | idle =>
      intro _
      have he : x.engine.emit = false := by simp [RdState.emit, htr]
      rw [length_advanced, he]
      exact .inl (h.allEmitted htr)
  case allEmitted =>
    rw [hcurrent, hsame]
    cases htr : x.engine.tr.trStateReg with
    | start => exact (h.tr_next hw htr).2
    | idle =>
      intro _
      have he : x.engine.emit = false := by simp [RdState.emit, htr]
      rw [length_advanced, he]
      exact h.allEmitted htr

theorem WordsInv.step (h : ServeInv x) (hw : WordsInv x) (ht : x.engine.req.take i = false) :
    WordsInv (x.step i) := by
  have hcurrent : (x.step i).current = x.advanced i := by simp [RdChain.step, ht]
  constructor
  · rw [hcurrent]
    exact hw.flags_advanced h
  · rw [hcurrent]
    exact words_advanced hw

end Step

/-! ### A new descriptor -/

section Take

variable {x : RdChain c} {i j : RdInput c}

lemma ServeInv.recv_idle (h : ServeInv x) (hw : WordsInv x)
    (hall : x.current.emitted.length = beatCycles c x.current.length) : x.engine.recv.recvStateReg = .idle := by
  by_contra hr
  have hstart : x.engine.recv.recvStateReg = .start := by
    cases hs : x.engine.recv.recvStateReg with
    | start => rfl
    | idle => exact absurd hs hr
  have hle := TaggedLog.length_le hw.words
  have hlt := (h.receiving hstart).2.2
  rw [Transfer.emittedWords, List.length_map] at hle
  omega

lemma ServeInv.advanced_eq (h : ServeInv x) (hw : WordsInv x) (htr : x.engine.tr.trStateReg = .idle) :
    x.advanced i = x.current := by
  have hr := h.recv_idle hw (h.allEmitted htr)
  simp [RdChain.advanced, RdChain.storedNow, RdChain.emittedNow, RdState.emit, hr, htr]

lemma ServeInv.emitted_le (h : ServeInv x) : x.current.emitted.length ≤ beatCycles c x.current.length := by
  cases htr : x.engine.tr.trStateReg with
  | idle => exact (h.allEmitted htr).le
  | start => exact (h.emitting htr).elim le_of_eq fun hrun => hrun.1.le

lemma ServeInv.sound (h : ServeInv x) (hw : WordsInv x) (hturn : TurnInv x.engine x.current.tags) :
    x.current.Sound where
  flags := by
    rw [hw.flags]
    apply List.IsPrefix.map
    rw [← Nat.min_eq_left h.emitted_le, ← List.take_range]
    exact List.take_prefix _ _
  words tag := (List.sublist_append_left _ _).trans (hw.words tag)
  tags := hturn.inTurn

lemma ServeInv.complete (h : ServeInv x) (hw : WordsInv x) (hturn : TurnInv x.engine x.current.tags)
    (htr : x.engine.tr.trStateReg = .idle) : x.current.Complete where
  toSound := h.sound hw hturn
  all := by rw [Transfer.beats, List.length_map, h.allEmitted htr]
  words_eq tag := (h.drained hw (h.allEmitted htr) tag).2

lemma tr_launch {s : RdState c} (ht : s.req.take i = true) (htr : s.tr.trStateReg = .idle) :
    (rdStep s i).tr.trStateReg = .start ∧
      (rdStep s i).tr.outputCycleReg = beatCycles c i.descTxRdReqLength ∧
      ∀ tag, (rdStep s i).tr.cpldDataFifoRdEnReg tag = false := by
  obtain ⟨-, hstart, hlow⟩ := take_iff.mp ht
  simp [rdStep, trStep, trStateNext, RdState.outputCycleNext, rdEnNext, htr, hstart, hlow, reqNext_take ht]

lemma pointer_launch {s : RdState c} (ht : s.req.take i = true) :
    (rdStep s i).tag.opTagFifoRdptr = 0 ∧ (rdStep s i).tag.opTagFifoRd = s.tag.opTagFifoRd := by
  have hs := (take_iff.mp ht).1
  simp [rdStep, tagStep, reqNext_take ht, hs]

lemma recv_launch {s : RdState c} (ht : s.req.take i = true) (hr : s.recv.recvStateReg = .idle) :
    (rdStep s i).recv.recvStateReg = .idle := by
  have hlow := (take_iff.mp ht).2.2
  simp [rdStep, recvStep, FpgaPcie.recvStart, hr, hlow]

/-- One cycle behind the start the output FSM stays in START, if there is a beat to output. -/
lemma tr_stays {s : RdState c} (ht : s.req.take i = true) (htr : s.tr.trStateReg = .idle) :
    (rdStep (rdStep s i) j).tr.trStateReg = .start ↔ 0 < beatCycles c i.descTxRdReqLength := by
  obtain ⟨hstart, hcycle, hen⟩ := tr_launch ht htr
  have he : (rdStep s i).emit = false := by simp [RdState.emit, hen]
  have hout := fun l => outputCycle_wait (i := j) hstart he l
  rw [hcycle] at hout
  generalize rdStep s i = s' at hstart hout
  have hnext : (rdStep s' j).tr.trStateReg =
      if beatCycles c i.descTxRdReqLength = 0 then .idle else .start := by
    simp only [rdStep, trStep, trStateNext, hstart, hout]
  rw [hnext, Nat.pos_iff_ne_zero]
  split_ifs with hz
  · simp [hz]
  · simp [hz]

theorem adopts (h : ServeInv x) (hw : WordsInv x) (ht : x.engine.req.take i = true) (hidle : x.engine.OutputIdle)
    (hpos : 0 < beatCycles c i.descTxRdReqLength) : x.engine.Adopts i j := by
  obtain ⟨htr, hrd⟩ := hidle
  obtain ⟨hstart, hcycle, hen⟩ := tr_launch ht htr
  obtain ⟨hptr, hlow⟩ := pointer_launch ht
  have hr := h.recv_idle hw (h.allEmitted htr)
  have hr' := recv_launch ht hr
  have he : (rdStep x.engine i).emit = false := by simp [RdState.emit, hen]
  have hreq : (rdStep x.engine i).req = reqNext c x.engine.req i x.engine.tag.opTagFifoWe x.engine.tag.opTagFifoWrTag :=
    rfl
  rw [reqNext_take ht] at hreq
  have hfirst : (rdStep x.engine i).req.descTxRdReqStartReg = true := by rw [hreq]
  have hbusy : (rdStep x.engine i).req.take j = false := by simp [ReqReg.take, hreq]
  have hnext := reqNext_of_not_take (rdStep x.engine i).req (rdStep x.engine i).tag.opTagFifoWe
    (rdStep x.engine i).tag.opTagFifoWrTag hbusy (by simp [hreq])
  refine ⟨by simp [hreq], ⟨htr, (tr_stays ht htr).mpr hpos, ?_⟩, ⟨hptr, hlow.trans hrd⟩, hr', ?_⟩
  · rw [← hcycle]
    exact outputCycle_wait hstart he _
  · have hs : recvStart (rdStep x.engine i) (reqNext c (rdStep x.engine i).req j (rdStep x.engine i).tag.opTagFifoWe
        (rdStep x.engine i).tag.opTagFifoWrTag) = true := by
      simp [recvStart, hr', hnext.2, hfirst]
    have hlen : (reqNext c (rdStep x.engine i).req j (rdStep x.engine i).tag.opTagFifoWe
        (rdStep x.engine i).tag.opTagFifoWrTag).descTxRdReqLengthReg = i.descTxRdReqLength := by
      rw [hnext.1, hreq]
    rw [rdStep, recvStep]
    simp only [hr', hs, hlen, if_true, and_self]

theorem ServeInv.take (ht : x.engine.req.take i = true) (htr : x.engine.tr.trStateReg = .idle)
    (hr : x.engine.recv.recvStateReg = .idle) (hpos : 0 < beatCycles c i.descTxRdReqLength) :
    ServeInv (x.step i) := by
  obtain ⟨hstart, hcycle, -⟩ := tr_launch ht htr
  have hcurrent : (x.step i).current = ⟨i.descTxRdReqAddress, i.descTxRdReqLength, [], []⟩ := by
    simp [RdChain.step, ht]
  have hreq : (x.step i).engine.req = reqNext c x.engine.req i x.engine.tag.opTagFifoWe x.engine.tag.opTagFifoWrTag :=
    rfl
  rw [reqNext_take ht] at hreq
  have hr' : (x.step i).engine.recv.recvStateReg = .idle := recv_launch ht hr
  constructor
  case lengthReg => rw [hreq, hcurrent]
  case reqIdle => simp [hreq]
  case first =>
    rw [hcurrent]
    exact fun _ => ⟨hr', hpos, rfl⟩
  case receiving =>
    rw [hr']
    nofun
  case received => simp [hreq]
  case emitting =>
    rw [hcurrent]
    exact fun _ => .inr ⟨hpos, hcycle⟩
  case allEmitted =>
    intro htr'
    rw [RdChain.step, hstart] at htr'
    cases htr'

theorem WordsInv.take (h : ServeInv x) (hw : WordsInv x) (ht : x.engine.req.take i = true)
    (htr : x.engine.tr.trStateReg = .idle) : WordsInv (x.step i) := by
  have hcurrent : (x.step i).current = ⟨i.descTxRdReqAddress, i.descTxRdReqLength, [], []⟩ := by
    simp [RdChain.step, ht]
  have hr := h.recv_idle hw (h.allEmitted htr)
  constructor
  · rw [hcurrent]
    rfl
  · intro tag
    have hfifo := (List.sublist_append_right _ _).trans (cpldFifo_sublist x.engine tag)
    rw [(h.drained hw (h.allEmitted htr) tag).1] at hfifo
    have harr : (x.step i).engine.arrivedWords tag = [] := by
      rw [RdChain.step, arrivedWords_step, List.sublist_nil.mp hfifo]
      simp [RdChain.storedNow, hr]
    rw [hcurrent, harr]
    exact List.Sublist.refl _

theorem TurnInv.take {s : RdState c} (ht : s.req.take i = true) (hidle : s.OutputIdle) :
    TurnInv (rdStep s i) [] := by
  obtain ⟨htr, hrd⟩ := hidle
  obtain ⟨-, -, hen⟩ := tr_launch ht htr
  obtain ⟨hptr, hlow⟩ := pointer_launch ht
  refine ⟨⟨nofun, List.isChain_nil⟩, fun _ => ⟨hptr, hlow.trans hrd⟩, nofun, fun hen' => ?_⟩
  rw [hen] at hen'
  cases hen'

end Take

/-! ### Runs -/

structure ChainInv (x : RdChain c) : Prop where
  serve : ServeInv x
  words : WordsInv x
  turn : TurnInv x.engine x.current.tags
  past : ∀ T ∈ x.past, T.Complete

section Runs

variable {i : ℕ → RdInput c}

lemma chainInv_reset : ChainInv (RdChain.run i 0) where
  serve := by
    have hzero : beatCycles c 0 = 0 := by simp [beatCycles]
    constructor
    case allEmitted => exact fun _ => hzero.symm
    case received => exact fun _ _ => hzero.symm
    all_goals first
      | rfl
      | exact fun _ => rfl
      | exact fun h => by cases h
  words := ⟨rfl, fun _ => List.Sublist.refl _⟩
  turn := ⟨⟨fun _ h => (by cases h), List.isChain_nil⟩, fun _ => ⟨rfl, rfl⟩, fun _ h => (by cases h),
    fun h => by cases h⟩
  past := fun _ h => by cases h

lemma ChainInv.step {x : RdChain c} {j : RdInput c} (ht : x.engine.req.take j = false) (h : ChainInv x) :
    ChainInv (x.step j) where
  serve := h.serve.step h.words ht
  words := h.words.step h.serve ht
  turn := by
    have hturn := h.turn.step h.serve h.words ht
    simpa [RdChain.step, ht] using hturn
  past := by
    rw [RdChain.step, ht]
    exact h.past

lemma ChainInv.take {x : RdChain c} {j : RdInput c} (ht : x.engine.req.take j = true) (hidle : x.engine.OutputIdle)
    (hpos : 0 < beatCycles c j.descTxRdReqLength) (h : ChainInv x) : ChainInv (x.step j) where
  serve := .take ht hidle.1 (h.serve.recv_idle h.words (h.serve.allEmitted hidle.1)) hpos
  words := h.words.take h.serve ht hidle.1
  turn := by
    have hcurrent : (x.step j).current = ⟨j.descTxRdReqAddress, j.descTxRdReqLength, [], []⟩ := by
      simp [RdChain.step, ht]
    rw [hcurrent]
    exact TurnInv.take ht hidle
  past := by
    rw [RdChain.step, ht, if_pos rfl, h.serve.advanced_eq h.words hidle.1]
    intro T hT
    rcases List.mem_append.mp hT with hpast | hlast
    · exact h.past T hpast
    · rw [List.mem_singleton.mp hlast]
      exact h.serve.complete h.words h.turn hidle.1

/-- Every descriptor that the request FSM takes finds the output FSM idle, and has a beat. -/
def StartsIdle (i : ℕ → RdInput c) : Prop :=
  ∀ t, (RdChain.run i t).engine.req.take (i t) = true →
    (RdChain.run i t).engine.OutputIdle ∧ 0 < beatCycles c (i t).descTxRdReqLength

theorem chainInv_run (h : StartsIdle i) (t : ℕ) : ChainInv (RdChain.run i t) := by
  induction t with
  | zero => exact chainInv_reset
  | succ t ih =>
    cases ht : (RdChain.run i t).engine.req.take (i t) with
    | false => exact ih.step ht
    | true =>
      obtain ⟨hidle, hpos⟩ := h t ht
      exact ih.take ht hidle hpos

theorem streamInv_run (i : ℕ → RdInput c) (t : ℕ) : ∃ q, StreamInv (RdChain.run i t) q := by
  induction t with
  | zero => exact ⟨[], OutFifo.reset_stores _, Nat.zero_le _, fun _ => Nat.zero_le _, nofun, rfl⟩
  | succ t ih =>
    obtain ⟨q, hq⟩ := ih
    exact ⟨_, hq.step⟩

/-! ### The consumer -/

lemma stream_mono {t u : ℕ} (htu : t ≤ u) : (RdChain.run i t).stream <+: (RdChain.run i u).stream := by
  induction htu with
  | refl => exact List.prefix_rfl
  | step _ ih =>
    rw [RdChain.run, RdChain.stream_step]
    exact ih.trans (List.prefix_append _ _)

lemma delivered_begins_stream (t : ℕ) : (RdChain.run i t).delivered <+: (RdChain.run i t).stream := by
  obtain ⟨q, hq⟩ := streamInv_run i t
  rw [← hq.stream]
  exact List.prefix_append _ _

lemma delivered_step (t : ℕ) : (RdChain.run i (t + 1)).delivered.length = (RdChain.run i t).delivered.length +
    ((RdChain.run i t).engine.out.outValidReg && (i t).mAxisTlpTready).toNat := by
  rw [RdChain.run, RdChain.step, List.length_append]
  cases (RdChain.run i t).engine.out.outValidReg && (i t).mAxisTlpTready <;> rfl

lemma valid_leadsTo (hready : ∀ t, ∃ u, t ≤ u ∧ (i u).mAxisTlpTready = true) (n : ℕ) : Progress.LeadsTo
    (fun t => (RdChain.run i t).engine.out.outValidReg = true ∧ n ≤ (RdChain.run i t).delivered.length)
    (fun t => n < (RdChain.run i t).delivered.length) := by
  refine Progress.leadsTo_of_event (E := fun t => (i t).mAxisTlpTready = true) ?_ ?_ fun t _ => hready t
  · rintro t ⟨hv, hn⟩ hnot
    rw [Bool.not_eq_true] at hnot
    refine ⟨?_, hn.trans (by rw [delivered_step]; omega)⟩
    simp [RdChain.run, RdChain.step, rdStep, OutFifo.step, hv, hnot]
  · rintro t ⟨hv, hn⟩ hr
    rw [delivered_step, hv, hr]
    simp only [Bool.and_self, Bool.toNat_true]
    omega

lemma pending_leadsTo (hready : ∀ t, ∃ u, t ≤ u ∧ (i u).mAxisTlpTready = true) (n : ℕ) : Progress.LeadsTo
    (fun t => n < (RdChain.run i t).stream.length ∧ n ≤ (RdChain.run i t).delivered.length)
    (fun t => n < (RdChain.run i t).delivered.length) := by
  rintro t ⟨hlt, hn⟩
  by_cases hdone : n < (RdChain.run i t).delivered.length
  · exact ⟨t, le_rfl, hdone⟩
  · cases hv : (RdChain.run i t).engine.out.outValidReg with
    | true => exact valid_leadsTo hready n t ⟨hv, hn⟩
    | false =>
      -- the oldest beat of the output FIFO moves to the output register
      obtain ⟨q, hq⟩ := streamInv_run i t
      have hlen := congrArg List.length hq.stream
      rw [List.length_append, OutFifo.pending, hv] at hlen
      have hne : q.isEmpty = false := by
        cases q with
        | nil =>
          simp only [Bool.false_eq_true, if_false, List.append_nil, List.length_nil] at hlen
          omega
        | cons => rfl
      have hv' : (RdChain.run i (t + 1)).engine.out.outValidReg = true := by
        simp [RdChain.run, RdChain.step, rdStep, OutFifo.step, OutFifo.load_eq hq.stores, hv, hne]
      obtain ⟨u, hu, hlt'⟩ := valid_leadsTo hready n (t + 1) ⟨hv', hn.trans (by rw [delivered_step]; omega)⟩
      exact ⟨u, by omega, hlt'⟩

theorem stream_delivered (hready : ∀ t, ∃ u, t ≤ u ∧ (i u).mAxisTlpTready = true) (t : ℕ) :
    ∃ u, (RdChain.run i t).stream <+: (RdChain.run i u).delivered := by
  have hcount : ∀ n, n ≤ (RdChain.run i t).stream.length →
      ∃ u, t ≤ u ∧ n ≤ (RdChain.run i u).delivered.length := by
    intro n
    induction n with
    | zero => exact fun _ => ⟨t, le_rfl, Nat.zero_le _⟩
    | succ n ih =>
      intro hn
      obtain ⟨u, hu, hle⟩ := ih (by omega)
      have hmono := (stream_mono (i := i) hu).length_le
      obtain ⟨v, hv, hlt⟩ := pending_leadsTo hready n u ⟨by omega, hle⟩
      exact ⟨v, by omega, hlt⟩
  obtain ⟨u, hu, hle⟩ := hcount _ le_rfl
  exact ⟨u, List.prefix_of_prefix_length_le (stream_mono hu) (delivered_begins_stream u) hle⟩

end Runs

/-- Out of reset, for every configuration, every start pattern, all completions and every pattern of
the two ready signals: consecutive descriptors work exactly when every descriptor that is taken finds
the output FSM idle with no release pending, and has a beat. -/
theorem consecutive_iff (i : ℕ → RdInput c) : Consecutive i ↔ StartsIdle i := by
  constructor
  · intro h t ht
    have hadopt := h.adopted t ht
    have htr := hadopt.output.1
    refine ⟨⟨htr, ?_⟩, (tr_stays ht htr).mp hadopt.output.2.1⟩
    rw [← (pointer_launch ht).2]
    exact hadopt.pointer.2
  · intro h
    have hinv := chainInv_run h
    refine ⟨fun t ht => ?_, fun t => ?_, stream_delivered⟩
    · obtain ⟨hidle, hpos⟩ := h t ht
      exact adopts (hinv t).serve (hinv t).words ht hidle hpos
    · obtain ⟨q, hq⟩ := streamInv_run i t
      exact ⟨(hinv t).past, (hinv t).serve.sound (hinv t).words (hinv t).turn, q, hq.stores, hq.stream⟩

/-- Two descriptors of 64 bytes. The second one is started with the interrupt of the first one. -/
def startWithIrq (t : ℕ) : RdInput ⟨6, 5, 0, 2, tagWidth_five, payloadSize_two⟩ where
  descTxRdReqStart := t == 0 || t == 6
  descTxRdReqLength := 64
  descTxRdReqAddress := 0
  txRdReqTlpReady := true
  rxCplTlpValid := t == 5
  rxCplTlpHdr := 0
  rxCplTlpData := fun _ => 0
  mAxisTlpTready := true

/-- The output FSM has not yet left START when the second descriptor comes with the interrupt. -/
theorem second_descriptor_missed : (RdChain.run startWithIrq 6).engine.recv.txRdReqIrqReg = true ∧
    ¬ Consecutive startWithIrq := by
  refine ⟨by decide, fun h => ?_⟩
  have htr := (h.adopted 6 (by decide)).output.1
  revert htr
  decide

end FpgaPcie
