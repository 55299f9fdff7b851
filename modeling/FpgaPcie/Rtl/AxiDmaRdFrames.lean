import FpgaPcie.Rtl.AxiDmaRdRun

/-!
# Frames of the card memory reader

With a slave on the AXI port that answers the bursts from a memory, word by word and in order, the stream
is the frames of the descriptors taken. When the slave answers in the end and both sides take what is
offered, every descriptor gets its whole frame.
-/

namespace FpgaPcie

variable {c : AxiConfig}

namespace AxiDmaRdSystem

variable {s : AxiDmaRdState c} {i : ℕ → AxiDmaRdInput c} {mem : ℕ → Bytes c.axiStrbWidth}

/-- The words that the slave has been asked for. -/
def asked (x : AxiDmaRdSystem c) : List ℕ := x.issued.flatMap (AxiBurst.words c)

/-- The words of all descriptors taken. -/
def words (x : AxiDmaRdSystem c) : List ℕ := x.accepted.flatMap (AxiDesc.words c)

/-- The slave gives the words of the bursts accepted, in order and from the memory `mem`. -/
def Answers (mem : ℕ → Bytes c.axiStrbWidth) (s : AxiDmaRdState c) (i : ℕ → AxiDmaRdInput c) : Prop :=
  ∀ t, (i t).mAxiRvalid = true →
    ∃ a, (run s i t).asked[(run s i t).received.length]? = some a ∧ (i t).mAxiRdata = mem a

/-! ### What the stream carries -/

lemma asked_succ (t : ℕ) : (run s i t).asked <+: (run s i (t + 1)).asked := by
  rw [asked, asked, run, step, List.flatMap_append]
  exact List.prefix_append _ _

lemma asked_begins (h : (run s i t).Inv) : (run s i t).asked <+: (run s i t).words := by
  rw [asked, words, ← h.axi.words, List.flatMap_append, List.append_assoc]
  exact List.prefix_append _ _

lemma shapes_length (d : AxiDesc) : (d.shapes c).length = (d.words c).length := by
  simp [AxiDesc.shapes, AxiDesc.words]

lemma shapes_length_eq (x : AxiDmaRdSystem c) : x.shapes.length = x.words.length := by
  unfold shapes words
  induction x.accepted with
  | nil => rfl
  | cons d l ih => rw [List.flatMap_cons, List.flatMap_cons, List.length_append, List.length_append, ih, shapes_length]

lemma frames_length (l : List AxiDesc) : (l.flatMap (AxiDesc.frame c mem)).length =
    (l.flatMap (AxiDesc.words c)).length := by
  induction l with
  | nil => rfl
  | cons d l ih =>
    rw [List.flatMap_cons, List.flatMap_cons, List.length_append, List.length_append, ih, AxiDesc.frame,
      List.length_zipWith, List.length_map, shapes_length, Nat.min_self]

/-- The frames of the descriptors, one behind the other. -/
lemma frames_eq (l : List AxiDesc) : List.zipWith BeatShape.beat (l.flatMap (AxiDesc.shapes c))
    ((l.flatMap (AxiDesc.words c)).map mem) = l.flatMap (AxiDesc.frame c mem) := by
  induction l with
  | nil => rfl
  | cons d l ih =>
    rw [List.flatMap_cons, List.flatMap_cons, List.flatMap_cons, List.map_append, List.zipWith_append, ih]
    · rfl
    · rw [List.length_map, shapes_length]

theorem received_begins (hmem : Answers mem s i) (t : ℕ) :
    (run s i t).received <+: (run s i t).asked.map mem := by
  induction t with
  | zero => exact List.prefix_rfl
  | succ t ih =>
    have hgrow := (asked_succ (s := s) (i := i) t).map mem
    show (run s i t).received ++ _ <+: _
    cases hv : (run s i t).engine.axis.mAxiRreadyReg && (i t).mAxiRvalid with
    | false =>
      rw [if_neg Bool.false_ne_true, List.append_nil]
      exact ih.trans hgrow
    | true =>
      rw [Bool.and_eq_true] at hv
      obtain ⟨a, ha, hdata⟩ := hmem t hv.2
      refine List.IsPrefix.trans ?_ hgrow
      rw [if_pos rfl, hdata]
      -- the next word behind a prefix
      have hlt := (List.getElem?_eq_some_iff.mp ha).1
      have htake := List.prefix_iff_eq_take.mp ih
      rw [List.prefix_iff_eq_take, List.length_append, List.length_singleton, List.take_add_one, ← htake,
        List.getElem?_map, ha]
      rfl

/-- The stream carries the frames of the descriptors taken, in order and each beat once. -/
theorem streamed_begins (hquiet : Quiet s) (hdesc : ∀ t, DescOk (i t)) (hmem : Answers mem s i) (t : ℕ) :
    (run s i t).streamed <+: (run s i t).accepted.flatMap (AxiDesc.frame c mem) := by
  have h := Inv.run hquiet hdesc t
  obtain ⟨q, -, hbeats⟩ := h.queue
  have hreceived := (received_begins hmem t).trans ((asked_begins h).map mem)
  rw [← frames_eq]
  have htake : List.zipWith BeatShape.beat (run s i t).shapes (run s i t).received =
      (List.zipWith BeatShape.beat (run s i t).shapes ((run s i t).words.map mem)).take (run s i t).received.length := by
    have hlen : (run s i t).received.length ≤ ((run s i t).shapes.take (run s i t).received.length).length := by
      rw [List.length_take, Nat.min_eq_left h.received_le]
    rw [List.take_zipWith, ← List.prefix_iff_eq_take.mp hreceived]
    conv_lhs => rw [← List.take_append_drop (run s i t).received.length (run s i t).shapes]
    exact ZipLog.zipWith_plan_append hlen _
  refine (List.prefix_append _ ((run s i t).engine.out.pending q)).trans ?_
  rw [hbeats, htake]
  exact List.take_prefix _ _

/-! ### Every descriptor gets its frame -/

/-- The slave takes a burst in the end, when the reader takes the words that are there, answers in the end and holds
its answer. -/
structure SlaveFair (s : AxiDmaRdState c) (i : ℕ → AxiDmaRdInput c) : Prop where
  arready : ∀ t, (run s i t).engine.axi.mAxiArvalidReg = true →
    (∀ u, t ≤ u → (run s i u).engine.axis.mAxiRreadyReg = true) → ∃ u, t ≤ u ∧ (i u).mAxiArready = true
  answered : ∀ t, (run s i t).received.length < (run s i t).asked.length → ∃ u, t ≤ u ∧ (i u).mAxiRvalid = true
  held : ∀ t, (i t).mAxiRvalid = true → (run s i t).engine.axis.mAxiRreadyReg = false →
    (i (t + 1)).mAxiRvalid = true

/-- The consumer of the stream is ready again and again. -/
def StreamFair (i : ℕ → AxiDmaRdInput c) : Prop := ∀ t, ∃ u, t ≤ u ∧ (i u).mAxisReadDataTready = true

lemma accepted_mono (s : AxiDmaRdState c) (i : ℕ → AxiDmaRdInput c) {t u : ℕ} (htu : t ≤ u) : (run s i t).accepted <+: (run s i u).accepted :=
  ZipLog.prefix_of_step (l := fun t => (run s i t).accepted) (fun _ => List.prefix_append _ _) htu

lemma asked_mono (s : AxiDmaRdState c) (i : ℕ → AxiDmaRdInput c) {t u : ℕ} (htu : t ≤ u) : (run s i t).asked <+: (run s i u).asked :=
  ZipLog.prefix_of_step (l := fun t => (run s i t).asked) asked_succ htu

lemma received_mono (s : AxiDmaRdState c) (i : ℕ → AxiDmaRdInput c) {t u : ℕ} (htu : t ≤ u) : (run s i t).received <+: (run s i u).received :=
  ZipLog.prefix_of_step (l := fun t => (run s i t).received) (fun _ => List.prefix_append _ _) htu

lemma words_mono (s : AxiDmaRdState c) (i : ℕ → AxiDmaRdInput c) {t u : ℕ} (htu : t ≤ u) : (run s i t).words <+: (run s i u).words := by
  obtain ⟨l, hl⟩ := accepted_mono s i htu
  rw [words, words, ← hl, List.flatMap_append]
  exact List.prefix_append _ _

lemma burst_words_pos (b : AxiBurst) : 0 < (b.words c).length := by simp [AxiBurst.words]

/-- The words that are there are taken from cycle `t` on. -/
def Reading (s : AxiDmaRdState c) (i : ℕ → AxiDmaRdInput c) (t : ℕ) : Prop :=
  ∀ u, t ≤ u → (run s i u).engine.axis.mAxiRreadyReg = true

/-- A burst on the AR channel is accepted. -/
lemma presented_leads (hfair : SlaveFair s i) (n : ℕ) :
    Progress.LeadsTo (fun t => (run s i t).engine.axi.mAxiArvalidReg = true ∧ n ≤ (run s i t).asked.length ∧
      Reading s i t) (fun t => n < (run s i t).asked.length) := by
  apply Progress.leadsTo_of_event (E := fun t => (i t).mAxiArready = true)
  · rintro t ⟨hv, hn, hreading⟩ hnot
    rw [Bool.not_eq_true] at hnot
    have hstay : (run s i (t + 1)).engine.axi.mAxiArvalidReg = true := by
      show ((run s i t).engine.axiNext (i t)).mAxiArvalidReg = true
      unfold AxiDmaRdState.axiNext
      dsimp only
      cases (run s i t).engine.axi.axiStateReg with
      | idle => cases (run s i t).engine.descAccept (i t) <;> simp [hv, hnot]
      | start => simp [hv, hnot]
    exact ⟨hstay, hn.trans (asked_succ t).length_le, fun u hu => hreading u (Nat.le_of_succ_le hu)⟩
  · rintro t ⟨hv, hn, -⟩ hready
    have hasked : (run s i (t + 1)).asked = (run s i t).asked ++ AxiBurst.words c
        ⟨(run s i t).engine.axi.mAxiAraddrReg, (run s i t).engine.axi.mAxiArlenReg⟩ := by
      simp [asked, run, step, presented, hv, hready]
    rw [hasked, List.length_append]
    have := burst_words_pos (c := c) ⟨(run s i t).engine.axi.mAxiAraddrReg, (run s i t).engine.axi.mAxiArlenReg⟩
    omega
  · exact fun t ht => hfair.arready t ht.1 ht.2.2

/-- As long as words of the descriptors taken are missing, the slave is asked for more. -/
lemma asked_step (hquiet : Quiet s) (hdesc : ∀ t, DescOk (i t)) (hfair : SlaveFair s i) {t : ℕ}
    (hreading : Reading s i t) (hmore : (run s i t).asked.length < (run s i t).words.length) :
    ∃ u, t ≤ u ∧ (run s i t).asked.length < (run s i u).asked.length := by
  have h := (Inv.run hquiet hdesc t).axi
  cases hv : (run s i t).engine.axi.mAxiArvalidReg with
  | true => exact presented_leads hfair _ t ⟨hv, le_rfl, hreading⟩
  | false =>
    have hstart : (run s i t).engine.axi.axiStateReg = .start := by
      by_contra hidle
      have hwords := congrArg List.length h.words
      rw [rest, if_neg hidle, presented, hv, if_neg Bool.false_ne_true, List.append_nil, List.append_nil] at hwords
      exact absurd hmore (Nat.not_lt_of_le hwords.ge)
    have hnext : (run s i (t + 1)).engine.axi.mAxiArvalidReg = true := by
      simp [run, step, AxiDmaRdState.step, AxiDmaRdState.axiNext, hstart, hv]
    obtain ⟨u, hu, hlt⟩ := presented_leads hfair _ (t + 1)
      ⟨hnext, (asked_succ t).length_le, fun v hv => hreading v (Nat.le_of_succ_le hv)⟩
    exact ⟨u, Nat.le_of_succ_le hu, hlt⟩

lemma asked_grows (hquiet : Quiet s) (hdesc : ∀ t, DescOk (i t)) (hfair : SlaveFair s i) {t : ℕ}
    (hreading : Reading s i t) (n : ℕ) (hn : n ≤ (run s i t).words.length) :
    ∃ u, t ≤ u ∧ n ≤ (run s i u).asked.length := by
  induction n with
  | zero => exact ⟨t, le_rfl, Nat.zero_le _⟩
  | succ n ih =>
    obtain ⟨u, hu, hle⟩ := ih (Nat.le_of_succ_le hn)
    by_cases hmore : n + 1 ≤ (run s i u).asked.length
    · exact ⟨u, hu, hmore⟩
    have hwords := (words_mono s i hu).length_le
    obtain ⟨v, hv, hlt⟩ := asked_step hquiet hdesc hfair (t := u) (fun v hv => hreading v (hu.trans hv)) (by omega)
    exact ⟨v, hu.trans hv, by omega⟩

/-- The output FIFO as its consumer sees it. -/
def outCycle (s : AxiDmaRdState c) (i : ℕ → AxiDmaRdInput c) (t : ℕ) : OutCycle (AxisBeat c.axiStrbWidth) where
  rst := false
  validInit := (run s i t).engine.tvalidInt (i t)
  init := (run s i t).engine.beatInt (i t)
  ready := (i t).mAxisReadDataTready

lemma streamed_succ (t : ℕ) : (run s i (t + 1)).streamed.length = (run s i t).streamed.length +
    ((run s i t).engine.out.outValidReg && (outCycle s i t).ready).toNat := by
  rw [run, step, List.length_append]
  unfold outCycle
  cases (run s i t).engine.out.outValidReg && (i t).mAxisReadDataTready <;> rfl

/-- What has been received leaves on the stream. -/
lemma streamed_grows (hquiet : Quiet s) (hdesc : ∀ t, DescOk (i t)) (hstream : StreamFair i) (t : ℕ) :
    ∃ u, t ≤ u ∧ (run s i t).received.length ≤ (run s i u).streamed.length := by
  have hstep : ∀ v, t ≤ v → (run s i (v + 1)).engine.out = (run s i v).engine.out.step
      AxiDmaRdState.outputFifoAddrWidth (outCycle s i v).validInit (outCycle s i v).init (outCycle s i v).ready :=
    fun v _ => rfl
  have hcarried : ∀ v, t ≤ v → ∃ q, (run s i v).engine.out.Stores AxiDmaRdState.outputFifoAddrWidth q ∧
      (run s i t).received.length ≤ (run s i v).streamed.length + ((run s i v).engine.out.pending q).length := by
    intro v hv
    have h := Inv.run hquiet hdesc v
    obtain ⟨q, hroom, hbeats⟩ := h.queue
    have hlen := congrArg List.length hbeats
    rw [List.length_append, List.length_zipWith, Nat.min_eq_right h.received_le] at hlen
    exact ⟨q, hroom.stores, hlen ▸ (received_mono s i hv).length_le⟩
  exact OutFifo.exists_delivered (d := fun v => (run s i v).streamed.length) hstep (fun v _ => streamed_succ v) hstream
    hcarried

/-- No word is taken from cycle `t` on, and one is missing. -/
structure Stuck (s : AxiDmaRdState c) (i : ℕ → AxiDmaRdInput c) (t : ℕ) : Prop where
  received : ∀ u, t ≤ u → (run s i u).received = (run s i t).received
  missing : (run s i t).received.length < (run s i t).words.length

section Stuck

variable {t : ℕ}

lemma Stuck.no_take (h : Stuck s i t) {u : ℕ} (hu : t ≤ u) :
    ((run s i u).engine.axis.mAxiRreadyReg && (i u).mAxiRvalid) = false := by
  by_contra hv
  have hnext := h.received (u + 1) (Nat.le_succ_of_le hu)
  rw [← h.received u hu] at hnext
  have hlen := congrArg List.length hnext
  rw [run, step, Bool.eq_true_of_not_eq_false hv, if_pos rfl, List.length_append, List.length_singleton] at hlen
  omega

/-- The stream FSM owes a beat all the time. -/
lemma Stuck.owes (hquiet : Quiet s) (hdesc : ∀ t, DescOk (i t)) (h : Stuck s i t) {u : ℕ} (hu : t ≤ u) :
    readOwed (run s i u).engine ++ cmdOwed (run s i u).engine ≠ [] := by
  have hmono := (words_mono s i hu).length_le
  have hmissing := h.missing
  rw [← (Inv.run hquiet hdesc u).owed, h.received u hu]
  intro hnil
  have hle := List.drop_eq_nil_iff.mp hnil
  rw [shapes_length_eq] at hle
  omega

/-- So it comes to reading and stays there. -/
lemma Stuck.reads (hquiet : Quiet s) (hdesc : ∀ t, DescOk (i t)) (h : Stuck s i t) {u : ℕ} (hu : t < u) :
    (run s i u).engine.axis.axisStateReg = .read := by
  obtain ⟨v, rfl⟩ := Nat.exists_eq_add_of_lt hu
  have hinv := Inv.run hquiet hdesc (t + v)
  have hle : t ≤ t + v := Nat.le_add_right t v
  have ht : (run s i (t + v)).engine.tvalidInt (i (t + v)) = false := by
    rw [hinv.axis.tvalidInt_eq]
    exact h.no_take hle
  show ((run s i (t + v)).engine.axisNext (i (t + v))).axisStateReg = .read
  cases hs : (run s i (t + v)).engine.axis.axisStateReg with
  | read => simp [AxiDmaRdState.axisNext, hs, ht]
  | idle =>
    have howes := h.owes hquiet hdesc hle
    cases hv : (run s i (t + v)).engine.axi.axisCmdValidReg with
    | false => simp [readOwed, cmdOwed, hs, hv] at howes
    | true => simp [AxiDmaRdState.axisNext, hs, hv]

/-- The stream FSM asks for a word all the time, when the output FIFO drains. -/
lemma Stuck.asks (hquiet : Quiet s) (hdesc : ∀ t, DescOk (i t)) (h : Stuck s i t) {u : ℕ} (hu : t ≤ u)
    (hfree : ∀ v, u ≤ v → (run s i v).engine.out.outFifoHalfFullReg = false) {v : ℕ} (hv : u + 2 ≤ v) :
    (run s i v).engine.axis.mAxiRreadyReg = true := by
  obtain ⟨w, rfl⟩ := Nat.exists_eq_add_of_le' hv
  have hinv := Inv.run hquiet hdesc (w + u + 1)
  have hread := h.reads hquiet hdesc (u := w + u + 1) (by omega)
  have ht : (run s i (w + u + 1)).engine.tvalidInt (i (w + u + 1)) = false := by
    rw [hinv.axis.tvalidInt_eq]
    exact h.no_take (by omega)
  have hroom := hfree (w + u + 1) (by omega)
  show ((run s i (w + u + 1)).engine.axisNext (i (w + u + 1))).mAxiRreadyReg = true
  simp [AxiDmaRdState.axisNext, hread, ht, AxiDmaRdState.treadyInt, hroom, (hinv.axis.read hread).1]

/-- A reader whose output FIFO drains takes the missing word. -/
theorem Stuck.impossible (hquiet : Quiet s) (hdesc : ∀ t, DescOk (i t)) (hslave : SlaveFair s i) (h : Stuck s i t)
    {u : ℕ} (hu : t ≤ u) (hfree : ∀ v, u ≤ v → (run s i v).engine.out.outFifoHalfFullReg = false) : False := by
  have hwords := (words_mono s i (show t ≤ u + 2 by omega)).length_le
  obtain ⟨v, hv, hlt⟩ := asked_grows hquiet hdesc hslave (t := u + 2) (fun v hv => h.asks hquiet hdesc hu hfree hv) _
    ((Nat.succ_le_of_lt h.missing).trans hwords)
  -- from here on the slave owes a word and the reader waits for it
  have hmore : (run s i (max (u + 2) v)).received.length < (run s i (max (u + 2) v)).asked.length := by
    rw [h.received _ (by omega)]
    exact Nat.lt_of_lt_of_le hlt (asked_mono s i (le_max_right (u + 2) v)).length_le
  obtain ⟨w, hw, hvalid⟩ := hslave.answered _ hmore
  have htake := h.no_take (u := w) (by omega)
  rw [h.asks hquiet hdesc hu hfree (by omega), hvalid] at htake
  cases htake

/-- With a consumer that is ready again and again the output FIFO drains. -/
lemma Stuck.drains (hquiet : Quiet s) (hdesc : ∀ t, DescOk (i t)) (hstream : StreamFair i) (h : Stuck s i t) :
    ∃ u, t ≤ u ∧ ∀ v, u ≤ v → (run s i v).engine.out.outFifoHalfFullReg = false := by
  obtain ⟨u, hu, hle⟩ := streamed_grows hquiet hdesc hstream t
  refine ⟨u + 1, by omega, fun v hv => ?_⟩
  obtain ⟨v, rfl⟩ := Nat.exists_eq_add_of_le' (Nat.le_of_add_left_le hv)
  have hinv := Inv.run hquiet hdesc v
  obtain ⟨q, hroom, hbeats⟩ := hinv.queue
  have hlen := congrArg List.length hbeats
  rw [List.length_append, List.length_zipWith, Nat.min_eq_right hinv.received_le, h.received v (by omega)] at hlen
  have hsent : (run s i u).streamed.length ≤ (run s i v).streamed.length :=
    (ZipLog.prefix_of_step (l := fun t => (run s i t).streamed) (fun _ => List.prefix_append _ _) (by omega)).length_le
  have hq : q.length = 0 := by
    rw [OutFifo.pending, List.length_append] at hlen
    omega
  show ((run s i v).engine.out.step _ _ _ _).outFifoHalfFullReg = false
  rw [OutFifo.step_halfFull hroom.stores, hq]
  rfl

end Stuck

/-- Every word of the descriptors taken is received. -/
lemma received_grows (hquiet : Quiet s) (hdesc : ∀ t, DescOk (i t)) (hslave : SlaveFair s i)
    (hstream : StreamFair i) (t n : ℕ) (hn : n ≤ (run s i t).words.length) :
    ∃ u, t ≤ u ∧ n ≤ (run s i u).received.length := by
  induction n with
  | zero => exact ⟨t, le_rfl, Nat.zero_le _⟩
  | succ n ih =>
    obtain ⟨u, hu, hle⟩ := ih (Nat.le_of_succ_le hn)
    by_contra hnone
    have hwords := (words_mono s i hu).length_le
    have hlen : ∀ v, u ≤ v → (run s i v).received.length < n + 1 := fun v hv =>
      Nat.lt_of_not_le fun hmore => hnone ⟨v, hu.trans hv, hmore⟩
    have hstuck : Stuck s i u := by
      have hu' := hlen u le_rfl
      refine ⟨fun v hv => ?_, by omega⟩
      have hv' := hlen v hv
      exact ((received_mono s i hv).eq_of_length_le (by omega)).symm
    obtain ⟨v, hv, hfree⟩ := hstuck.drains hquiet hdesc hstream
    exact hstuck.impossible hquiet hdesc hslave hv hfree

/-- Every descriptor that is taken gets its whole frame. -/
theorem frames_delivered (hquiet : Quiet s) (hdesc : ∀ t, DescOk (i t)) (hslave : SlaveFair s i)
    (hstream : StreamFair i) (hmem : Answers mem s i) (t : ℕ) :
    ∃ u, t ≤ u ∧ (run s i t).accepted.flatMap (AxiDesc.frame c mem) <+: (run s i u).streamed := by
  obtain ⟨u, hu, hle⟩ := received_grows hquiet hdesc hslave hstream t _ le_rfl
  obtain ⟨v, hv, hsent⟩ := streamed_grows hquiet hdesc hstream u
  refine ⟨v, hu.trans hv, List.prefix_of_prefix_length_le ?_ (streamed_begins hquiet hdesc hmem v) ?_⟩
  · obtain ⟨l, hl⟩ := accepted_mono s i (hu.trans hv)
    rw [← hl, List.flatMap_append]
    exact List.prefix_append _ _
  · rw [frames_length]
    exact hle.trans hsent

/-- As long as a beat is missing, one is offered in the end, whether it is taken or not. -/
theorem offers (hquiet : Quiet s) (hdesc : ∀ t, DescOk (i t)) (hslave : SlaveFair s i) {t : ℕ}
    (hmore : (run s i t).streamed.length < (run s i t).words.length) :
    ∃ u, t ≤ u ∧ (run s i u).engine.out.outValidReg = true := by
  by_contra hnone
  have hvalid : ∀ u, t ≤ u → (run s i u).engine.out.outValidReg = false := fun u hu =>
    Bool.eq_false_of_not_eq_true fun hv => hnone ⟨u, hu, hv⟩
  -- nothing is pending, so nothing is received either
  have hempty : ∀ u, t ≤ u → (run s i u).received.length = (run s i u).streamed.length ∧
      (run s i (u + 1)).engine.out.outFifoHalfFullReg = false := by
    intro u hu
    have hinv := Inv.run hquiet hdesc u
    obtain ⟨q, hroom, hbeats⟩ := hinv.queue
    have hload : (run s i (u + 1)).engine.out.outValidReg = false := hvalid (u + 1) (Nat.le_succ_of_le hu)
    have hq : q = [] := by
      by_contra hne
      simp [run, step, AxiDmaRdState.step, OutFifo.step, OutFifo.load_eq hroom.stores, hvalid u hu, hne] at hload
    subst hq
    have hlen := congrArg List.length hbeats
    rw [List.length_append, List.length_zipWith, Nat.min_eq_right hinv.received_le, OutFifo.pending, hvalid u hu] at hlen
    refine ⟨hlen.symm, ?_⟩
    show ((run s i u).engine.out.step _ _ _ _).outFifoHalfFullReg = false
    rw [OutFifo.step_halfFull hroom.stores]
    rfl
  have hsame : ∀ u, t ≤ u → (run s i u).streamed = (run s i t).streamed := by
    intro u hu
    induction u, hu using Nat.le_induction with
    | base => rfl
    | succ u hu ih =>
      rw [run, step, hvalid u hu, ← ih]
      exact List.append_nil _
  have hstuck : Stuck s i t := by
    refine ⟨fun u hu => ?_, ?_⟩
    · apply ((received_mono s i hu).eq_of_length_le _).symm
      rw [(hempty u hu).1, (hempty t le_rfl).1, hsame u hu]
    · rw [(hempty t le_rfl).1]
      exact hmore
  refine hstuck.impossible hquiet hdesc hslave (u := t + 1) (Nat.le_succ t) fun v hv => ?_
  obtain ⟨v, rfl⟩ := Nat.exists_eq_add_of_le' (Nat.le_of_add_left_le hv)
  exact (hempty v (by omega)).2

/-- A reader that has sent all its beats is quiet. -/
theorem Inv.quiet {x : AxiDmaRdSystem c} (h : x.Inv) (hasked : x.received.length ≤ x.asked.length)
    (hall : x.words.length ≤ x.streamed.length) : Quiet x.engine := by
  obtain ⟨q, hroom, hbeats⟩ := h.queue
  have hlen := congrArg List.length hbeats
  rw [List.length_append, List.length_zipWith, Nat.min_eq_right h.received_le] at hlen
  have hle := h.received_le
  rw [shapes_length_eq] at hle
  have hwords := congrArg List.length h.axi.words
  rw [List.flatMap_append, List.append_assoc, List.length_append, List.length_append] at hwords
  have hasked' : x.asked.length = (x.issued.flatMap (AxiBurst.words c)).length := rfl
  have hwords' : x.words.length = (x.accepted.flatMap (AxiDesc.words c)).length := rfl
  have howed := h.owed
  rw [List.drop_of_length_le (by rw [shapes_length_eq]; omega), eq_comm, List.append_eq_nil_iff] at howed
  have harvalid : x.engine.axi.mAxiArvalidReg = false := by
    by_contra hv
    rw [presented, if_pos (Bool.eq_true_of_not_eq_false hv), List.flatMap_singleton] at hwords
    have := burst_words_pos (c := c) ⟨x.engine.axi.mAxiAraddrReg, x.engine.axi.mAxiArlenReg⟩
    omega
  have haxi : x.engine.axi.axiStateReg = .idle := by
    cases hs : x.engine.axi.axiStateReg with
    | idle => rfl
    | start =>
      have hpos := Chunks.count_pos c.axiStrbWidth_pos (h.axi.left hs).2.1
      rw [rest, if_pos hs, AxiConfig.wordAddrs_length] at hwords
      omega
  have haxis : x.engine.axis.axisStateReg = .idle := by
    cases hs : x.engine.axis.axisStateReg with
    | idle => rfl
    | read =>
      have hread := howed.1
      rw [readOwed, if_pos hs, tailShapes] at hread
      exact absurd hread (by simp)
  have hcmd : x.engine.axi.axisCmdValidReg = false := by
    by_contra hv
    have hcmd := howed.2
    rw [cmdOwed, if_pos (Bool.eq_true_of_not_eq_false hv), tailShapes] at hcmd
    exact absurd hcmd (by simp)
  have hpending : x.engine.out.pending q = [] := List.eq_nil_of_length_eq_zero (by omega)
  obtain ⟨hout, rfl⟩ := List.append_eq_nil_iff.mp hpending
  refine ⟨haxi, hcmd, harvalid, haxis, h.axis.idle haxis, hroom.stores, ?_⟩
  by_contra hv
  simp [Bool.eq_true_of_not_eq_false hv] at hout

/-- A burst on the AR channel stays until it is accepted. -/
lemma presented_held {t : ℕ} (hready : (i t).mAxiArready = false) (hne : (run s i t).presented ≠ []) :
    (run s i (t + 1)).presented = (run s i t).presented := by
  have hv : (run s i t).engine.axi.mAxiArvalidReg = true := by
    by_contra hv
    exact hne (if_neg hv)
  have hkeep : ((run s i t).engine.axiNext (i t)).mAxiArvalidReg = true ∧
      ((run s i t).engine.axiNext (i t)).mAxiAraddrReg = (run s i t).engine.axi.mAxiAraddrReg ∧
      ((run s i t).engine.axiNext (i t)).mAxiArlenReg = (run s i t).engine.axi.mAxiArlenReg := by
    unfold AxiDmaRdState.axiNext
    dsimp only
    cases (run s i t).engine.axi.axiStateReg with
    | idle => cases (run s i t).engine.descAccept (i t) <;> simp [hv, hready]
    | start => simp [hv, hready]
  obtain ⟨hvalid, haddr, hlen⟩ := hkeep
  show (if ((run s i t).engine.axiNext (i t)).mAxiArvalidReg then _ else _) = _
  rw [presented, hvalid, hv, if_pos rfl, if_pos rfl]
  show [AxiBurst.mk ((run s i t).engine.axiNext (i t)).mAxiAraddrReg _] = _
  rw [haddr]
  show [AxiBurst.mk _ ((run s i t).engine.axiNext (i t)).mAxiArlenReg] = _
  rw [hlen]

/-- For all patterns of the ready and valid flags: the bursts are legal, stay until they are accepted and are
the words of the descriptors taken, in order. When the slave answers from a memory the stream is their frames, in
order, and every descriptor taken gets its whole frame when slave and consumer move. -/
theorem axi_reader_ok (mem : ℕ → Bytes c.axiStrbWidth) (s : AxiDmaRdState c) (i : ℕ → AxiDmaRdInput c)
    (hquiet : Quiet s) (hdesc : ∀ t, DescOk (i t)) :
    (∀ t, (∀ b ∈ (run s i t).issued ++ (run s i t).presented, b.Legal c) ∧
      ((i t).mAxiArready = false → (run s i t).presented ≠ [] →
        (run s i (t + 1)).presented = (run s i t).presented) ∧
      (run s i t).asked <+: (run s i t).words) ∧
    (Answers mem s i → (∀ t, (run s i t).streamed <+: (run s i t).accepted.flatMap (AxiDesc.frame c mem)) ∧
      (SlaveFair s i → StreamFair i → ∀ t, ∃ u, t ≤ u ∧
        (run s i t).accepted.flatMap (AxiDesc.frame c mem) <+: (run s i u).streamed)) := by
  constructor
  · intro t
    have h := Inv.run hquiet hdesc t
    exact ⟨h.axi.legal, presented_held, asked_begins h⟩
  · intro hmem
    exact ⟨streamed_begins hquiet hdesc hmem, fun hslave hstream t => frames_delivered hquiet hdesc hslave hstream hmem t⟩

/-! ### A memory that answers at once -/

/-- The inputs of a cycle: the descriptor `d` is offered, every burst is accepted and the next word is there. -/
def answer (mem : ℕ → Bytes c.axiStrbWidth) (d : AxiDesc) (x : AxiDmaRdSystem c) : AxiDmaRdInput c where
  sAxisReadDesc := d
  sAxisReadDescValid := true
  mAxiArready := true
  mAxiRdata := mem (x.asked.getD x.received.length 0)
  mAxiRvalid := decide (x.received.length < x.asked.length)
  mAxisReadDataTready := true

def answered (mem : ℕ → Bytes c.axiStrbWidth) (d : AxiDesc) (s : AxiDmaRdState c) : ℕ → AxiDmaRdSystem c
  | 0 => ⟨s, [], [], [], []⟩
  | t + 1 => (answered mem d s t).step (answer mem d (answered mem d s t))

def answeredInput (mem : ℕ → Bytes c.axiStrbWidth) (d : AxiDesc) (s : AxiDmaRdState c) (t : ℕ) : AxiDmaRdInput c :=
  answer mem d (answered mem d s t)

lemma run_answered (mem : ℕ → Bytes c.axiStrbWidth) (d : AxiDesc) (s : AxiDmaRdState c) (t : ℕ) :
    run s (answeredInput mem d s) t = answered mem d s t := by
  induction t with
  | zero => rfl
  | succ t ih => rw [run, ih, answered, answeredInput]

lemma answered_answers (mem : ℕ → Bytes c.axiStrbWidth) (d : AxiDesc) (s : AxiDmaRdState c) :
    Answers mem s (answeredInput mem d s) := by
  intro t hv
  rw [run_answered]
  have hlt : (answered mem d s t).received.length < (answered mem d s t).asked.length := of_decide_eq_true hv
  refine ⟨_, List.getElem?_eq_getElem hlt, ?_⟩
  show mem ((answered mem d s t).asked.getD _ 0) = _
  rw [List.getD_eq_getElem _ _ hlt]

lemma answered_fair (mem : ℕ → Bytes c.axiStrbWidth) (d : AxiDesc) (s : AxiDmaRdState c) :
    SlaveFair s (answeredInput mem d s) := by
  refine ⟨fun t _ _ => ⟨t, le_rfl, rfl⟩, fun t hlt => ⟨t, le_rfl, ?_⟩, fun t hv hr => ?_⟩
  · rw [run_answered] at hlt
    exact decide_eq_true hlt
  · have hlt : (answered mem d s t).received.length < (answered mem d s t).asked.length := of_decide_eq_true hv
    rw [← run_answered] at hlt
    have hmore := (asked_succ (s := s) (i := answeredInput mem d s) t).length_le
    have hsame : (run s (answeredInput mem d s) (t + 1)).received = (run s (answeredInput mem d s) t).received := by
      rw [run, step, hr]
      exact List.append_nil _
    show decide ((answered mem d s (t + 1)).received.length < (answered mem d s (t + 1)).asked.length) = true
    rw [← run_answered, hsame]
    exact decide_eq_true (hlt.trans_le hmore)

/-- Descriptors of 100 bytes up to a 4 KiB boundary and behind it, one after the other. -/
theorem axi_reader_answered :
    let c : AxiConfig := ⟨6, 16, 64, by decide, by decide, by decide, by decide⟩
    let mem : ℕ → Bytes c.axiStrbWidth := fun a j => BitVec.ofNat 8 (a + j)
    let i := answeredInput mem ⟨4032, 100⟩ (AxiDmaRdState.reset c)
    ∀ t, ∃ u, t ≤ u ∧ (run (AxiDmaRdState.reset c) i t).accepted.flatMap (AxiDesc.frame c mem) <+:
      (run (AxiDmaRdState.reset c) i u).streamed := by
  intro c mem i
  have hdesc : ∀ t, DescOk (i t) := fun _ _ => ⟨show 1 ≤ 100 by decide, show 100 < 2 ^ 32 by decide⟩
  exact ((axi_reader_ok mem (AxiDmaRdState.reset c) i (reset_quiet c) hdesc).2 (answered_answers mem _ _)).2
    (answered_fair mem _ _) fun t => ⟨t, le_rfl, rfl⟩

end AxiDmaRdSystem

end FpgaPcie
