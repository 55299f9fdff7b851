import FpgaPcie.Rtl.DmaRdFlight

/-!
# Tags that are held

From a start with free tags on, a tag stays in `op_tag_fifo` as long as data for it is due or waits in
its data FIFO. This does not depend on the MRd port: an MRd that is not accepted keeps its tag and
nothing is due for it. What is due for the tags is a parameter here.
-/

namespace FpgaPcie

variable {c : RdConfig}

/-- `op_tag_fifo` counts this tag. -/
def RdState.InUse (s : RdState c) (tag : ℕ) : Prop :=
  RingBuffer.InWindow (2 ^ c.pcieTagWidth) s.tag.opTagFifoRdptr s.tag.opTagFifo.words.length tag

/-- `live tag` MRds of a tag are open, and `due tag` beats are to come for them. -/
structure TagsHeld (s : RdState c) (live due : ℕ → ℕ) : Prop where
  live_le : ∀ tag, live tag ≤ due tag
  range : ∀ tag, 2 ^ c.pcieTagWidth ≤ tag → due tag = 0
  rdptr_lt : s.tag.opTagFifoRdptr < 2 ^ c.pcieTagWidth
  wrTag : s.req.reqStateReg = .start → s.tag.opTagFifoWrTag =
    (s.tag.opTagFifoRdptr + s.tag.opTagFifo.words.length) % 2 ^ c.pcieTagWidth
  we : s.tag.opTagFifoWe = true → s.tag.opTagFifo.words.length < 2 ^ c.pcieTagWidth ∧
    s.req.reqStateReg = .start ∧ s.req.txRdReqTlpValidReg = false
  rd : s.tag.opTagFifoRd = true → 0 < s.tag.opTagFifo.words.length ∧ due s.tag.opTagFifoRdptr = 0 ∧
    s.arrivedWords s.tag.opTagFifoRdptr = [] ∧ s.tr.cycleReg = 0
  rdEn : ∀ tag, s.tr.cpldDataFifoRdEnReg tag = true →
    tag = s.tag.opTagFifoRdptr ∧ 0 < s.tag.opTagFifo.words.length
  held : ∀ tag, s.InUse tag → live tag ≤ 1 ∧ 0 < s.tag.tagTableInfo tag ∧
    due tag + (s.arrivedWords tag).length + (if tag = s.tag.opTagFifoRdptr then s.tr.cycleReg else 0) ≤
      s.tag.tagTableInfo tag
  free : ∀ tag, tag < 2 ^ c.pcieTagWidth → ¬s.InUse tag → due tag = 0 ∧ s.arrivedWords tag = []
  cycle : s.tag.opTagFifo.words.length = 0 → s.tr.cycleReg = 0

/-- What a clock edge may add and has to take away: the MRd that is built with the tag of a pulse has at most
as many beats as its table entry, and a beat that is stored is due no more. -/
structure Charges (s : RdState c) (i : RdInput c) (live due live' due' : ℕ → ℕ) : Prop where
  live_le : ∀ tag, live' tag ≤ due' tag
  live : ∀ tag, live' tag ≤ live tag +
    if s.tag.opTagFifoWe = true ∧ tag = s.tag.opTagFifoWrTag then 1 else 0
  due : ∀ tag, due' tag + (s.stores i tag).toNat ≤ due tag +
    if s.tag.opTagFifoWe = true ∧ tag = s.tag.opTagFifoWrTag then (rdStep s i).req.byteCycleReg else 0
  entry : s.tag.opTagFifoWe = true → 0 < (rdStep s i).req.byteCycleReg

section Edge

variable {s : RdState c} {i : RdInput c}

lemma arrivedWords_length_le (s : RdState c) (i : RdInput c) (tag : ℕ) :
    ((rdStep s i).arrivedWords tag).length + (s.pops tag).toNat ≤
      (s.arrivedWords tag).length + (s.stores i tag).toNat := by
  have hnew : (if (rdStep s i).recv.cpldDataFifoWrEnReg tag then
      [(rdStep s i).recv.cpldDataFifoDinReg tag] else []).length = (s.stores i tag).toNat := by
    cases hst : s.stores i tag <;> simp [rdStep, recvStep, hst]
  have hsub := ((s.cpldDataFifo tag).clock_sublist (if s.recv.cpldDataFifoWrEnReg tag then
    [s.recv.cpldDataFifoDinReg tag] else []) (s.tr.cpldDataFifoRdEnReg tag)).length_le
  rw [List.length_append] at hsub
  have htail : (if s.tr.cpldDataFifoRdEnReg tag then (s.cpldDataFifo tag).words.tail
      else (s.cpldDataFifo tag).words).length + (s.pops tag).toNat = (s.cpldDataFifo tag).words.length := by
    rw [RdState.pops]
    cases hw : (s.cpldDataFifo tag).words with
    | nil => cases s.tr.cpldDataFifoRdEnReg tag <;> rfl
    | cons w ws => cases s.tr.cpldDataFifoRdEnReg tag <;> simp
  unfold RdState.arrivedWords
  rw [List.length_append, hnew, List.length_append]
  simp only [rdStep, cpldFifoStep]
  omega

lemma cycleNext_le (s : RdState c) : s.cycleNext ≤ s.tr.cycleReg + s.emit.toNat := by
  unfold RdState.cycleNext
  cases s.tr.trStateReg with
  | idle => exact Nat.zero_le _
  | start =>
    cases s.emit with
    | false => exact le_rfl
    | true => exact Nat.mod_le _ _

lemma cycleReg_le (s : RdState c) (i : RdInput c) :
    (rdStep s i).tr.cycleReg ≤ s.tr.cycleReg + s.emit.toNat := by
  simp only [rdStep, trStep]
  split
  · exact Nat.zero_le _
  · exact cycleNext_le s

lemma emit_le_pops (s : RdState c) : s.emit.toNat ≤ (s.pops s.tag.opTagFifoRdptr).toNat := by
  cases he : s.emit with
  | false => exact Nat.zero_le _
  | true =>
    obtain ⟨-, hen, hne⟩ := rdEn_of_emit he
    have hpops : s.pops s.tag.opTagFifoRdptr = true := by simpa [RdState.pops, hen] using hne
    rw [hpops]

lemma state_of_start (ht : s.req.take i = false) (hs : (rdStep s i).req.reqStateReg = .start) :
    s.req.reqStateReg = .start := by
  cases hr : s.req.reqStateReg with
  | start => rfl
  | idle =>
    rw [rdStep, reqNext_idle hr ht] at hs
    exact hr.symm.trans hs

/-- The allocator pulses behind a cycle in which the request FSM waits for a tag. -/
lemma we_next (ht : s.req.take i = false) (hw : (rdStep s i).tag.opTagFifoWe = true) :
    s.tag.opTagFifoWe = false ∧ s.tag.opTagFifo.words.length < 2 ^ c.pcieTagWidth ∧
      (rdStep s i).req.reqStateReg = .start ∧ (rdStep s i).req.txRdReqTlpValidReg = false := by
  simp only [rdStep, tagStep] at hw
  cases hwe : s.tag.opTagFifoWe with
  | true => simp [hwe] at hw
  | false =>
    simp only [hwe, Bool.false_eq_true, if_false, Bool.and_eq_true, decide_eq_true_eq] at hw
    refine ⟨rfl, hw.2, ?_⟩
    cases hs : s.req.reqStateReg with
    | idle => simp [reqNext_idle hs ht] at hw
    | start =>
      cases ha : s.req.accept i with
      | true => simp [reqNext_accept hs ha] at hw
      | false => simp [rdStep, hwe, reqNext_wait hs ha, hs]

/-- An MRd is on the port behind a pulse of the allocator, and has its tag. -/
lemma valid_next (hv : (rdStep s i).req.txRdReqTlpValidReg = true) :
    s.tag.opTagFifoWe = true ∧
      (rdStep s i).req.txRdReqTlpHdrReg = mrdHdr c s.req s.tag.opTagFifoWrTag ∧
      (rdStep s i).req.byteCycleReg = byteCycleNext c s.req := by
  cases hs : s.req.reqStateReg with
  | idle =>
    cases ht : s.req.take i with
    | true => simp [rdStep, reqNext_take ht] at hv
    | false => simp [rdStep, reqNext_idle hs ht] at hv
  | start =>
    cases ha : s.req.accept i with
    | true => simp [rdStep, reqNext_accept hs ha] at hv
    | false =>
      cases hw : s.tag.opTagFifoWe with
      | true => simp [rdStep, hw, reqNext_allocate hs ha]
      | false => simp [rdStep, hw, reqNext_wait hs ha] at hv

end Edge

section Step

variable {s : RdState c} {i : RdInput c} {live due live' due' : ℕ → ℕ}

namespace TagsHeld

lemma length_step (h : TagsHeld s live due) :
    (rdStep s i).tag.opTagFifo.words.length + s.tag.opTagFifoRd.toNat =
      s.tag.opTagFifo.words.length + s.tag.opTagFifoWe.toNat := by
  have hfit : s.tag.opTagFifo.words.length +
      (if s.tag.opTagFifoWe then [s.tag.opTagFifoWrTag] else []).length ≤ 2 ^ c.pcieTagWidth := by
    cases hw : s.tag.opTagFifoWe with
    | false => simpa using s.tag.opTagFifo.length_le
    | true => simpa using (h.we hw).1
  simp only [rdStep, tagStep]
  rw [BoundedQueue.clock_words _ _ _ hfit, List.length_append]
  have hwe : (if s.tag.opTagFifoWe then [s.tag.opTagFifoWrTag] else []).length = s.tag.opTagFifoWe.toNat := by
    cases s.tag.opTagFifoWe <;> rfl
  rw [hwe]
  cases hr : s.tag.opTagFifoRd with
  | false => simp
  | true =>
    have hpos := (h.rd hr).1
    simp only [if_true, List.length_tail, Bool.toNat_true]
    omega

/-- A pulse builds an MRd. -/
lemma built (h : TagsHeld s live due) (hw : s.tag.opTagFifoWe = true) :
    (rdStep s i).req.txRdReqTlpValidReg = true := by
  obtain ⟨-, hs, hv⟩ := h.we hw
  have ha : s.req.accept i = false := by simp [ReqReg.accept, hv]
  simp [rdStep, hw, reqNext_allocate hs ha]

lemma emit_release (h : TagsHeld s live due) (hr : s.tag.opTagFifoRd = true) : s.emit = false := by
  by_contra he
  obtain ⟨-, -, hne⟩ := rdEn_of_emit (Bool.eq_true_of_not_eq_false he)
  exact hne (List.append_eq_nil_iff.mp (h.rd hr).2.2.1).1

/-- The tags that are in use behind a clock edge. -/
lemma inUse_step (ht : s.req.take i = false) (h : TagsHeld s live due) (tag : ℕ) :
    (rdStep s i).InUse tag ↔ s.InUse tag ∧ ¬(s.tag.opTagFifoRd = true ∧ tag = s.tag.opTagFifoRdptr) ∨
      s.tag.opTagFifoWe = true ∧ tag = s.tag.opTagFifoWrTag := by
  have hlen := h.length_step (i := i)
  have hM := s.tag.opTagFifo.length_le
  -- first the pulse at the end, then the release at the read pointer
  have hpush : RingBuffer.InWindow (2 ^ c.pcieTagWidth) s.tag.opTagFifoRdptr
      (s.tag.opTagFifo.words.length + s.tag.opTagFifoWe.toNat) tag ↔
      s.InUse tag ∨ s.tag.opTagFifoWe = true ∧ tag = s.tag.opTagFifoWrTag := by
    cases hw : s.tag.opTagFifoWe with
    | false => simp [RdState.InUse]
    | true =>
      rw [Bool.toNat_true, RingBuffer.inWindow_push, ← h.wrTag (h.we hw).2.1]
      simp [RdState.InUse]
  rw [RdState.InUse, opTagFifoRdptr_step ht]
  cases hr : s.tag.opTagFifoRd with
  | false =>
    rw [hr, Bool.toNat_false, Nat.add_zero] at hlen
    rw [hlen, if_neg Bool.false_ne_true, hpush]
    simp
  | true =>
    rw [hr, Bool.toNat_true] at hlen
    have hpos := (h.rd hr).1
    have hroom : (rdStep s i).tag.opTagFifo.words.length < 2 ^ c.pcieTagWidth := by
      cases hw : s.tag.opTagFifoWe with
      | false =>
        rw [hw, Bool.toNat_false] at hlen
        omega
      | true =>
        have := (h.we hw).1
        rw [hw, Bool.toNat_true] at hlen
        omega
    have hne : s.tag.opTagFifoWe = true → s.tag.opTagFifoWrTag ≠ s.tag.opTagFifoRdptr := by
      intro hw heq
      have hend : ¬RingBuffer.InWindow _ s.tag.opTagFifoRdptr _ _ := RingBuffer.not_inWindow_end (h.we hw).1
      rw [← h.wrTag (h.we hw).2.1, heq] at hend
      exact hend ⟨0, hpos, by rw [Nat.add_zero, Nat.mod_eq_of_lt h.rdptr_lt]⟩
    rw [if_pos rfl, RingBuffer.inWindow_pop h.rdptr_lt hroom, hlen, hpush]
    constructor
    · rintro ⟨huse | hnew, hother⟩
      · exact .inl ⟨huse, fun hand => hother hand.2⟩
      · exact .inr hnew
    · rintro (⟨huse, hnot⟩ | hnew)
      · exact ⟨.inl huse, fun heq => hnot ⟨rfl, heq⟩⟩
      · exact ⟨.inr hnew, hnew.2 ▸ hne hnew.1⟩

lemma not_inUse_wrTag (h : TagsHeld s live due) (hw : s.tag.opTagFifoWe = true) :
    ¬s.InUse s.tag.opTagFifoWrTag := by
  rw [h.wrTag (h.we hw).2.1]
  exact RingBuffer.not_inWindow_end (h.we hw).1

lemma wrTag_lt (h : TagsHeld s live due) (hw : s.tag.opTagFifoWe = true) :
    s.tag.opTagFifoWrTag < 2 ^ c.pcieTagWidth := by
  rw [h.wrTag (h.we hw).2.1]
  exact Nat.mod_lt _ (tagCount_pos c)

lemma inUse_rdptr (h : TagsHeld s live due) (hpos : 0 < s.tag.opTagFifo.words.length) :
    s.InUse s.tag.opTagFifoRdptr :=
  ⟨0, hpos, by rw [Nat.add_zero, Nat.mod_eq_of_lt h.rdptr_lt]⟩

/-- Nothing is added to a tag that is in use. -/
lemma charge_inUse (hch : Charges s i live due live' due') (h : TagsHeld s live due) {tag : ℕ}
    (huse : s.InUse tag) : live' tag ≤ live tag ∧ due' tag + (s.stores i tag).toNat ≤ due tag := by
  have hno : ¬(s.tag.opTagFifoWe = true ∧ tag = s.tag.opTagFifoWrTag) := by
    rintro ⟨hw, rfl⟩
    exact h.not_inUse_wrTag hw huse
  have hlive := hch.live tag
  have hdue := hch.due tag
  rw [if_neg hno, Nat.add_zero] at hlive hdue
  exact ⟨hlive, hdue⟩

/-- What is due for a tag and what waits for it goes down with each word that is popped. -/
lemma level_inUse (hch : Charges s i live due live' due') (h : TagsHeld s live due) {tag : ℕ}
    (huse : s.InUse tag) : due' tag + ((rdStep s i).arrivedWords tag).length + (s.pops tag).toNat ≤
      due tag + (s.arrivedWords tag).length := by
  have hdue := (h.charge_inUse hch huse).2
  have hwords := arrivedWords_length_le s i tag
  omega

/-- The count of the current tag starts at zero. -/
lemma cycle_zero (h : TagsHeld s live due)
    (hnew : s.tag.opTagFifoRd = true ∨ s.tag.opTagFifo.words.length = 0) :
    (rdStep s i).tr.cycleReg = 0 := by
  have hcyc : s.tr.cycleReg = 0 ∧ s.emit = false := by
    rcases hnew with hr | hn
    · exact ⟨(h.rd hr).2.2.2, h.emit_release hr⟩
    · refine ⟨h.cycle hn, ?_⟩
      by_contra he
      have hpos := (h.rdEn _ (rdEn_of_emit (Bool.eq_true_of_not_eq_false he)).2.1).2
      omega
  have hle := cycleReg_le s i
  rw [hcyc.1, hcyc.2] at hle
  exact Nat.le_zero.mp hle

/-- The read pointer is released when nothing is due for its tag and no word waits. -/
lemma release_next (ht : s.req.take i = false) (hch : Charges s i live due live' due')
    (h : TagsHeld s live due) (hr : (rdStep s i).tag.opTagFifoRd = true) :
    s.tag.opTagFifoRd = false ∧ 0 < s.tag.opTagFifo.words.length ∧ due' s.tag.opTagFifoRdptr = 0 ∧
      (rdStep s i).arrivedWords s.tag.opTagFifoRdptr = [] ∧ (rdStep s i).tr.cycleReg = 0 := by
  rw [opTagFifoRd_step ht] at hr
  simp only [Bool.and_eq_true, Bool.not_eq_true', decide_eq_true_eq] at hr
  obtain ⟨hrd, hen, hcyc⟩ := hr
  have hpos := (h.rdEn _ hen).2
  have huse := h.inUse_rdptr hpos
  obtain ⟨-, -, hsum⟩ := h.held _ huse
  rw [if_pos rfl, ← hcyc] at hsum
  have hle := cycleNext_le s
  have hlevel := h.level_inUse hch huse
  have hpop := emit_le_pops s
  refine ⟨hrd, hpos, by omega, List.length_eq_zero_iff.mp (by omega), ?_⟩
  simp only [rdStep, trStep, if_pos hcyc]

lemma table_next (tag : ℕ) : (rdStep s i).tag.tagTableInfo tag =
    if s.tag.opTagFifoRd = true ∧ tag = s.tag.opTagFifoRdptr then 0
    else if s.tag.opTagFifoWe = true ∧ tag = s.tag.opTagFifoWrTag then (rdStep s i).req.byteCycleReg
    else s.tag.tagTableInfo tag := rfl

/-- The tag of a pulse has been free, so that all that is due for it is its new MRd. -/
lemma held_new (ht : s.req.take i = false) (hch : Charges s i live due live' due') (h : TagsHeld s live due)
    (hw : s.tag.opTagFifoWe = true) : live' s.tag.opTagFifoWrTag ≤ 1 ∧
      0 < (rdStep s i).tag.tagTableInfo s.tag.opTagFifoWrTag ∧
      due' s.tag.opTagFifoWrTag + ((rdStep s i).arrivedWords s.tag.opTagFifoWrTag).length +
          (if s.tag.opTagFifoWrTag = (rdStep s i).tag.opTagFifoRdptr then (rdStep s i).tr.cycleReg else 0) ≤
        (rdStep s i).tag.tagTableInfo s.tag.opTagFifoWrTag := by
  have hnot := h.not_inUse_wrTag hw
  obtain ⟨hdue, hwords⟩ := h.free _ (h.wrTag_lt hw) hnot
  have hold := h.live_le s.tag.opTagFifoWrTag
  have hlive := hch.live s.tag.opTagFifoWrTag
  have hcharge := hch.due s.tag.opTagFifoWrTag
  have harr := arrivedWords_length_le s i s.tag.opTagFifoWrTag
  have hentry := hch.entry hw
  rw [if_pos ⟨hw, rfl⟩] at hlive hcharge
  rw [hwords, List.length_nil] at harr
  have hkeep : ¬(s.tag.opTagFifoRd = true ∧ s.tag.opTagFifoWrTag = s.tag.opTagFifoRdptr) := by
    rintro ⟨hr, heq⟩
    rw [heq] at hnot
    exact hnot (h.inUse_rdptr (h.rd hr).1)
  have hcyc : (if s.tag.opTagFifoWrTag = (rdStep s i).tag.opTagFifoRdptr then (rdStep s i).tr.cycleReg
      else 0) = 0 := by
    split
    · rename_i heq
      cases hr : s.tag.opTagFifoRd with
      | true => exact h.cycle_zero (.inl hr)
      | false =>
        rw [opTagFifoRdptr_step ht, hr, if_neg Bool.false_ne_true] at heq
        refine h.cycle_zero (.inr (Nat.eq_zero_of_not_pos fun hpos => ?_))
        rw [heq] at hnot
        exact hnot (h.inUse_rdptr hpos)
    · rfl
  rw [table_next, if_neg hkeep, if_pos ⟨hw, rfl⟩, hcyc]
  exact ⟨by omega, hentry, by omega⟩

lemma held_old (ht : s.req.take i = false) (hch : Charges s i live due live' due') (h : TagsHeld s live due)
    {tag : ℕ} (huse : s.InUse tag ∧ ¬(s.tag.opTagFifoRd = true ∧ tag = s.tag.opTagFifoRdptr))
    (hnew : ¬(s.tag.opTagFifoWe = true ∧ tag = s.tag.opTagFifoWrTag)) :
    live' tag ≤ 1 ∧ 0 < (rdStep s i).tag.tagTableInfo tag ∧
      due' tag + ((rdStep s i).arrivedWords tag).length +
          (if tag = (rdStep s i).tag.opTagFifoRdptr then (rdStep s i).tr.cycleReg else 0) ≤
        (rdStep s i).tag.tagTableInfo tag := by
  obtain ⟨hone, hpos, hsum⟩ := h.held tag huse.1
  have hlive := (h.charge_inUse hch huse.1).1
  have hlevel := h.level_inUse hch huse.1
  rw [table_next, if_neg huse.2, if_neg hnew]
  refine ⟨hlive.trans hone, hpos, ?_⟩
  by_cases heq : tag = (rdStep s i).tag.opTagFifoRdptr
  · rw [if_pos heq]
    cases hr : s.tag.opTagFifoRd with
    | true =>
      have hzero := h.cycle_zero (i := i) (.inl hr)
      omega
    | false =>
      -- the count goes up with a word that is popped
      rw [opTagFifoRdptr_step ht, hr, if_neg Bool.false_ne_true] at heq
      subst heq
      rw [if_pos rfl] at hsum
      have hcyc := cycleReg_le s i
      have hpop := emit_le_pops s
      omega
  · rw [if_neg heq]
    omega

theorem step (ht : s.req.take i = false) (hch : Charges s i live due live' due')
    (h : TagsHeld s live due) : TagsHeld (rdStep s i) live' due' := by
  have hlen := h.length_step (i := i)
  have hM := tagCount_pos c
  have hptr := opTagFifoRdptr_step (s := s) (i := i) ht
  have hout : ∀ tag, 2 ^ c.pcieTagWidth ≤ tag → due' tag = 0 := by
    intro tag htag
    have hdue := hch.due tag
    have hno : ¬(s.tag.opTagFifoWe = true ∧ tag = s.tag.opTagFifoWrTag) := by
      rintro ⟨hw, rfl⟩
      have := h.wrTag_lt hw
      omega
    rw [if_neg hno, h.range tag htag] at hdue
    omega
  refine ⟨hch.live_le, hout, ?_, fun hs => ?_, fun hw => ?_, fun hr => ?_, fun tag hen => ?_,
    fun tag huse => ?_, fun tag htag hnot => ?_, fun hn => ?_⟩
  · rw [hptr]
    split
    · exact Nat.mod_lt _ hM
    · exact h.rdptr_lt
  · have hstart := state_of_start ht hs
    have hwr := h.wrTag hstart
    have hnext : (rdStep s i).tag.opTagFifoWrTag = (s.tag.opTagFifoRdptr +
        (s.tag.opTagFifo.words.length + s.tag.opTagFifoWe.toNat)) % 2 ^ c.pcieTagWidth := by
      simp only [rdStep, tagStep, hstart, reduceCtorEq, if_false]
      cases s.tag.opTagFifoWe with
      | false => simpa using hwr
      | true => rw [if_pos rfl, hwr, Nat.mod_add_mod, Bool.toNat_true, Nat.add_assoc]
    rw [hnext, hptr, ← hlen]
    cases s.tag.opTagFifoRd with
    | false => simp
    | true => rw [if_pos rfl, Nat.mod_add_mod, Bool.toNat_true, Nat.add_right_comm, Nat.add_assoc]
  · obtain ⟨hwe, hlt, hstart, hv⟩ := we_next ht hw
    rw [hwe, Bool.toNat_false] at hlen
    exact ⟨by omega, hstart, hv⟩
  · obtain ⟨hrd, hpos, hdue, hwords, hcyc⟩ := h.release_next ht hch hr
    rw [hrd, Bool.toNat_false] at hlen
    rw [hptr, hrd, if_neg Bool.false_ne_true]
    exact ⟨by omega, hdue, hwords, hcyc⟩
  · obtain ⟨rfl, -, hne⟩ := rdEnNext_words hen
    have hwords : s.arrivedWords s.tag.opTagFifoRdptr ≠ [] := fun hnil =>
      hne (List.append_eq_nil_iff.mp hnil).1
    have hrd : s.tag.opTagFifoRd = false := by
      by_contra hr
      exact hwords (h.rd (Bool.eq_true_of_not_eq_false hr)).2.2.1
    have hpos : 0 < s.tag.opTagFifo.words.length := by
      by_contra hzero
      have hno : ¬s.InUse s.tag.opTagFifoRdptr := by
        rintro ⟨j, hj, -⟩
        omega
      exact hwords (h.free _ h.rdptr_lt hno).2
    rw [hrd, Bool.toNat_false] at hlen
    rw [hptr, hrd, if_neg Bool.false_ne_true]
    exact ⟨rfl, by omega⟩
  · rw [h.inUse_step ht] at huse
    by_cases hnew : s.tag.opTagFifoWe = true ∧ tag = s.tag.opTagFifoWrTag
    · obtain ⟨hw, rfl⟩ := hnew
      exact h.held_new ht hch hw
    · exact h.held_old ht hch (huse.resolve_right hnew) hnew
  · rw [h.inUse_step ht] at hnot
    have hfree : due tag = 0 ∧ s.arrivedWords tag = [] := by
      by_cases huse : s.InUse tag
      · have hrel : s.tag.opTagFifoRd = true ∧ tag = s.tag.opTagFifoRdptr := by
          by_contra hno
          exact hnot (.inl ⟨huse, hno⟩)
        obtain ⟨hr, rfl⟩ := hrel
        exact ⟨(h.rd hr).2.1, (h.rd hr).2.2.1⟩
      · exact h.free tag htag huse
    have hdue := hch.due tag
    have hwords := arrivedWords_length_le s i tag
    rw [if_neg fun hnew => hnot (.inr hnew), hfree.1] at hdue
    rw [hfree.2, List.length_nil] at hwords
    exact ⟨by omega, List.length_eq_zero_iff.mp (by omega)⟩
  · cases hr : s.tag.opTagFifoRd with
    | true => exact h.cycle_zero (.inl hr)
    | false =>
      rw [hr, Bool.toNat_false, Nat.add_zero, hn] at hlen
      exact h.cycle_zero (.inr (by omega))

end TagsHeld

end Step

/-! ### Starts -/

section Launch

variable {s : RdState c} {i : RdInput c}

/-- No tag is in use, no release is pending, and no word is left for the output FSM, which is idle. -/
structure RdState.Drained (s : RdState c) : Prop where
  fifo : s.tag.opTagFifo.words = []
  rd : s.tag.opTagFifoRd = false
  tr : s.tr.trStateReg = .idle
  words : ∀ tag, tag < 2 ^ c.pcieTagWidth → s.arrivedWords tag = []

/-- An idle request FSM offers no MRd and waits for no tag. -/
lemma idle_next (hs : (rdStep s i).req.reqStateReg = .idle) :
    (rdStep s i).req.txRdReqTlpValidReg = false ∧ (rdStep s i).tag.opTagFifoWe = false := by
  cases hr : s.req.reqStateReg with
  | idle =>
    cases ht : s.req.take i with
    | true => simp [rdStep, reqNext_take ht] at hs
    | false => simp [rdStep, tagStep, reqNext_idle hr ht]
  | start =>
    cases ha : s.req.accept i with
    | true => simp [rdStep, tagStep, reqNext_accept hr ha]
    | false =>
      cases hw : s.tag.opTagFifoWe with
      | true => simp [rdStep, hw, reqNext_allocate hr ha, hr] at hs
      | false => simp [rdStep, hw, reqNext_wait hr ha, hr] at hs

lemma tagsHeld_reset (c : RdConfig) : TagsHeld (rdReset c) (fun _ => 0) (fun _ => 0) where
  live_le _ := le_rfl
  range _ _ := rfl
  rdptr_lt := tagCount_pos c
  wrTag h := nomatch h
  we h := nomatch h
  rd h := nomatch h
  rdEn _ h := nomatch h
  held _ h := nomatch h.choose_spec.1
  free _ _ _ := ⟨rfl, rfl⟩
  cycle _ := rfl

/-- With no tag in use nothing is due. -/
lemma TagsHeld.due_zero {live due : ℕ → ℕ} (h : TagsHeld s live due) (hfifo : s.tag.opTagFifo.words = [])
    (tag : ℕ) : due tag = 0 := by
  by_cases htag : tag < 2 ^ c.pcieTagWidth
  · refine (h.free tag htag ?_).1
    rintro ⟨j, hj, -⟩
    simp [hfifo] at hj
  · exact h.range tag (Nat.le_of_not_lt htag)

lemma RdState.Drained.length_next (hw : s.tag.opTagFifoWe = false) (h : s.Drained) :
    (rdStep s i).tag.opTagFifo.words.length = 0 := by
  simp [rdStep, tagStep, hw, h.rd, h.fifo]

lemma RdState.Drained.not_inUse (hw : s.tag.opTagFifoWe = false) (h : s.Drained) (tag : ℕ) :
    ¬(rdStep s i).InUse tag := by
  rintro ⟨j, hj, -⟩
  rw [h.length_next hw] at hj
  exact Nat.not_lt_zero j hj

theorem TagsHeld.launch (ht : s.req.take i = true) (hw : s.tag.opTagFifoWe = false)
    (hno : ∀ tag, s.stores i tag = false) (h : s.Drained) :
    TagsHeld (rdStep s i) (fun _ => 0) (fun _ => 0) := by
  have hidle := (take_iff.mp ht).1
  have hlen := h.length_next (i := i) hw
  have hptr : (rdStep s i).tag.opTagFifoRdptr = 0 := by
    simp [rdStep, tagStep, reqNext_take ht, hidle]
  have hwords : ∀ tag, tag < 2 ^ c.pcieTagWidth → (rdStep s i).arrivedWords tag = [] := by
    intro tag htag
    have hle := arrivedWords_length_le s i tag
    rw [h.words tag htag, hno, List.length_nil, Bool.toNat_false] at hle
    exact List.length_eq_zero_iff.mp (by omega)
  refine ⟨fun _ => le_rfl, fun _ _ => rfl, ?_, fun _ => ?_, fun hwe => ?_, fun hr => ?_, fun tag hen => ?_,
    fun tag huse => absurd huse (h.not_inUse hw tag), fun tag htag _ => ⟨rfl, hwords tag htag⟩, fun _ => ?_⟩
  · rw [hptr]
    exact tagCount_pos c
  · rw [hptr, hlen]
    simp [rdStep, tagStep, hidle]
  · simp [rdStep, tagStep, reqNext_take ht, hw] at hwe
  · simp [rdStep, tagStep, reqNext_take ht, hidle, h.rd] at hr
  · simp [rdStep, trStep, rdEnNext, h.tr] at hen
  · simp [rdStep, trStep, RdState.cycleNext, h.tr]

end Launch

end FpgaPcie
