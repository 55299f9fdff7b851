import FpgaPcie.Rtl.AxiDmaWrFrames

/-!
# What reaches the card memory

The card memory takes the bursts and the beats of the W channel in any interleaving and stores a beat when it has
both. When it takes what is offered and answers the bursts that are complete, every beat of the stream is taken and
every frame is stored.
-/

namespace FpgaPcie

variable {c : AxiDmaWrConfig}

namespace AxiDmaWrSystem

variable {s : AxiDmaWrState c} {i : ℕ → AxiDmaWrInput c}

/-- The stores that the card memory has the address and the data of. -/
def stored (x : AxiDmaWrSystem c) : List (CardStore c.axiStrbWidth) :=
  storesOf (x.issued.flatMap (AxiBurst.words c.toAxiConfig)) x.written

/-- The bursts that are complete on both channels. -/
def finished (x : AxiDmaWrSystem c) : ℕ := min x.issued.length (x.written.map WBeat.wlast |>.count true)

/-- The card memory takes the bursts and the beats in the end, and answers the bursts that are complete. -/
structure SlaveFair (s : AxiDmaWrState c) (i : ℕ → AxiDmaWrInput c) : Prop where
  awready : ∀ t, (run s i t).engine.reg.mAxiAwvalidReg = true → ∃ u, t ≤ u ∧ (i u).mAxiAwready = true
  wready : ∀ t, (run s i t).engine.out.outValidReg = true → ∃ u, t ≤ u ∧ (i u).mAxiWready = true
  answered : ∀ t, (run s i t).answered < (run s i t).finished → ∃ u, t ≤ u ∧ (i u).mAxiBvalid = true
  held : ∀ t, (i t).mAxiBvalid = true → (run s i t).engine.status.mAxiBreadyReg = false →
    (i (t + 1)).mAxiBvalid = true

/-- A beat of the stream stays until it is taken. -/
def StreamHeld (s : AxiDmaWrState c) (i : ℕ → AxiDmaWrInput c) : Prop :=
  ∀ t, (i t).sAxisWriteDataTvalid = true → (run s i t).engine.reg.sAxisWriteDataTreadyReg = false →
    (i (t + 1)).sAxisWriteDataTvalid = true

/-- A descriptor stays until it is taken. -/
def DescHeld (s : AxiDmaWrState c) (i : ℕ → AxiDmaWrInput c) : Prop :=
  ∀ t, (i t).sAxisWriteDescValid = true → (run s i t).engine.reg.sAxisWriteDescReadyReg = false →
    (i (t + 1)).sAxisWriteDescValid = true

/-! ### Logs -/

lemma issued_mono (s : AxiDmaWrState c) (i : ℕ → AxiDmaWrInput c) {t u : ℕ} (htu : t ≤ u) :
    (run s i t).issued <+: (run s i u).issued :=
  ZipLog.prefix_of_step (l := fun t => (run s i t).issued) (fun _ => List.prefix_append _ _) htu

lemma written_mono (s : AxiDmaWrState c) (i : ℕ → AxiDmaWrInput c) {t u : ℕ} (htu : t ≤ u) :
    (run s i t).written <+: (run s i u).written :=
  ZipLog.prefix_of_step (l := fun t => (run s i t).written) (fun _ => List.prefix_append _ _) htu

lemma bursts_mono (s : AxiDmaWrState c) (i : ℕ → AxiDmaWrInput c) {t u : ℕ} (htu : t ≤ u) :
    (run s i t).bursts <+: (run s i u).bursts := by
  refine ZipLog.prefix_of_step (l := fun t => (run s i t).bursts) (fun t => ?_) htu
  show _ <+: ((run s i t).step (i t)).bursts
  rw [bursts_step]
  exact List.prefix_append _ _

lemma madeLog_mono (s : AxiDmaWrState c) (i : ℕ → AxiDmaWrInput c) {t u : ℕ} (htu : t ≤ u) :
    madeLog s i t <+: madeLog s i u :=
  ZipLog.prefix_of_step (fun _ => List.prefix_append _ _) htu

section Safety

variable {x : AxiDmaWrSystem c} {g : WrFrames c} {q : List (WBeat c.axiStrbWidth)}

lemma issued_words (x : AxiDmaWrSystem c) : x.issued.flatMap (AxiBurst.words c.toAxiConfig) <+: x.words := by
  rw [words, bursts, List.flatMap_append]
  exact List.prefix_append _ _

/-- The card memory stores a first part of what the frames put there. -/
lemma Inv.stored_begins (h : Inv x g q) :
    x.stored.filter CardStore.effective <+: g.stores.filter CardStore.effective := by
  rw [← h.stores]
  exact (ZipLog.zipWith_begins (issued_words x) (List.prefix_append _ _)).filter _

lemma Inv.wlast_begins (h : Inv x g q) : x.written.map WBeat.wlast <+: x.bursts.flatMap AxiBurst.lastFlags := by
  rw [← h.flags, made, List.map_append, List.append_assoc]
  exact List.prefix_append _ _

/-- A burst on the AW channel stays until it is accepted. -/
lemma presented_held {i : AxiDmaWrInput c} (hready : i.mAxiAwready = false) (hne : x.presented ≠ []) :
    (x.step i).presented = x.presented := by
  have hv : x.engine.reg.mAxiAwvalidReg = true := by
    by_contra hv
    exact hne (if_neg hv)
  have hb : x.engine.startsBurst i = false := by
    by_contra hb
    exact absurd ((startsBurst_spec (Bool.eq_true_of_not_eq_false hb)).2.1.symm.trans hv) Bool.false_ne_true
  obtain ⟨hvalid, hsame⟩ := aw_keep hb
  obtain ⟨haddr, hlen⟩ := hsame hv
  show (if (x.engine.regNext i).mAxiAwvalidReg then
    [AxiBurst.mk (x.engine.regNext i).mAxiAwaddrReg (x.engine.regNext i).mAxiAwlenReg] else []) = _
  rw [hvalid, hready, hv, haddr, hlen, presented, hv]
  rfl

end Safety

/-! ### What is made is stored -/

/-- The output FIFO as the W channel sees it; without a beat any `wready` will do. -/
def outCycle (s : AxiDmaWrState c) (i : ℕ → AxiDmaWrInput c) (t : ℕ) : OutCycle (WBeat c.axiStrbWidth) where
  rst := false
  validInit := (run s i t).engine.wvalidInt (i t)
  init := (run s i t).engine.beatInt (i t)
  ready := (i t).mAxiWready || !(run s i t).engine.out.outValidReg

lemma written_succ (t : ℕ) : (run s i (t + 1)).written.length = (run s i t).written.length +
    ((run s i t).engine.out.outValidReg && (outCycle s i t).ready).toNat := by
  rw [run, step, List.length_append, outCycle]
  cases (run s i t).engine.out.outValidReg <;> cases (i t).mAxiWready <;> rfl

lemma outCycle_ready (hfair : SlaveFair s i) (t : ℕ) : ∃ u, t ≤ u ∧ (outCycle s i u).ready = true := by
  cases hv : (run s i t).engine.out.outValidReg with
  | false => exact ⟨t, le_rfl, by simp [outCycle, hv]⟩
  | true =>
    obtain ⟨u, hu, hready⟩ := hfair.wready t hv
    exact ⟨u, hu, by simp [outCycle, hready]⟩

lemma written_grows (hquiet : Quiet s) (hin : ∀ t, InputOk (i t)) (hfair : SlaveFair s i) (t : ℕ) :
    ∃ u, t ≤ u ∧ madeLog s i t <+: (run s i u).written := by
  have hstep : ∀ v, t ≤ v → (run s i (v + 1)).engine.out = (run s i v).engine.out.step
      AxiDmaWrState.outputFifoAddrWidth (outCycle s i v).validInit (outCycle s i v).init (outCycle s i v).ready :=
    fun v _ => (OutFifo.step_ready _ _ _ _ _).symm
  have hcarried : ∀ v, t ≤ v → ∃ q, (run s i v).engine.out.Stores AxiDmaWrState.outputFifoAddrWidth q ∧
      (madeLog s i t).length ≤ (run s i v).written.length + ((run s i v).engine.out.pending q).length := by
    intro v hv
    obtain ⟨g, q, h, hmade⟩ := Inv.run hquiet hin v
    have hle := (madeLog_mono s i hv).length_le
    rw [← hmade, made, List.length_append] at hle
    exact ⟨q, h.room.stores, hle⟩
  obtain ⟨u, hu, hle⟩ := OutFifo.exists_delivered (d := fun v => (run s i v).written.length) hstep
    (fun v _ => written_succ v) (outCycle_ready hfair) hcarried
  obtain ⟨g, q, h, hmade⟩ := Inv.run hquiet hin u
  refine ⟨u, hu, List.prefix_of_prefix_length_le (madeLog_mono s i hu) ?_ hle⟩
  rw [← hmade]
  exact List.prefix_append _ _

/-- A burst on the AW channel is accepted. -/
lemma issued_grows (hfair : SlaveFair s i) (t : ℕ) : ∃ u, t ≤ u ∧ (run s i t).bursts <+: (run s i u).issued := by
  cases hv : (run s i t).engine.reg.mAxiAwvalidReg with
  | false =>
    refine ⟨t, le_rfl, ?_⟩
    rw [bursts, presented, hv, if_neg Bool.false_ne_true, List.append_nil]
  | true =>
    obtain ⟨u, hu, hready⟩ := hfair.awready t hv
    refine ⟨u + 1, Nat.le_succ_of_le hu, (bursts_mono s i hu).trans ?_⟩
    rw [run, step, hready, if_pos rfl]
    exact List.prefix_rfl

lemma stored_mono (s : AxiDmaWrState c) (i : ℕ → AxiDmaWrInput c) {t u : ℕ} (htu : t ≤ u) :
    (run s i t).stored <+: (run s i u).stored := by
  refine ZipLog.zipWith_begins ?_ (written_mono s i htu)
  obtain ⟨l, hl⟩ := issued_mono s i htu
  rw [← hl, List.flatMap_append]
  exact List.prefix_append _ _

/-- What the frames put into the card memory is stored there in the end. -/
theorem stored_grows (hquiet : Quiet s) (hin : ∀ t, InputOk (i t)) (hfair : SlaveFair s i) (t : ℕ) :
    ∃ u, t ≤ u ∧ storesOf (run s i t).words (madeLog s i t) <+: (run s i u).stored := by
  obtain ⟨v, hv, hissued⟩ := issued_grows hfair t
  obtain ⟨u, hu, hwritten⟩ := written_grows hquiet hin hfair t
  refine ⟨max v u, hv.trans (le_max_left _ _), ZipLog.zipWith_begins ?_ (hwritten.trans (written_mono s i (le_max_right v u)))⟩
  obtain ⟨l, hl⟩ := hissued.trans (issued_mono s i (le_max_left v u))
  rw [words, ← hl, List.flatMap_append]
  exact List.prefix_append _ _

/-! ### Waiting comes to an end -/

section Waiting

variable {t : ℕ}

/-- No beat is made from cycle `t` on. -/
def Silent (s : AxiDmaWrState c) (i : ℕ → AxiDmaWrInput c) (t : ℕ) : Prop :=
  ∀ u, t ≤ u → (run s i u).engine.wvalidInt (i u) = false

lemma Silent.madeLog_eq (h : Silent s i t) {u : ℕ} (hu : t ≤ u) : madeLog s i u = madeLog s i t := by
  induction u, hu using Nat.le_induction with
  | base => rfl
  | succ u hu ih => rw [madeLog, news_nil (h u hu), List.append_nil, ih]

/-- The output FIFO drains. -/
lemma Silent.drained (hquiet : Quiet s) (hin : ∀ t, InputOk (i t)) (hfair : SlaveFair s i) (h : Silent s i t) :
    ∃ u, t ≤ u ∧ ∀ v, u ≤ v → (run s i v).written = madeLog s i v ∧
      (run s i (v + 1)).engine.out.outFifoHalfFullReg = false := by
  obtain ⟨u, hu, hall⟩ := written_grows hquiet hin hfair t
  refine ⟨u, hu, fun v hv => ?_⟩
  obtain ⟨g, q, hinv, hmade⟩ := Inv.run hquiet hin v
  have hle := (hall.trans (written_mono s i hv)).length_le
  rw [← h.madeLog_eq (hu.trans hv)] at hle
  have hlen := congrArg List.length hmade
  rw [made, List.length_append, OutFifo.pending, List.length_append] at hlen
  have hq : q = [] := List.eq_nil_of_length_eq_zero (by omega)
  subst hq
  constructor
  · have hprefix : (run s i v).written <+: madeLog s i v := by
      rw [← hmade]
      exact List.prefix_append _ _
    exact hprefix.eq_of_length_le hle
  · show ((run s i v).engine.out.step _ _ _ _).outFifoHalfFullReg = false
    rw [OutFifo.step_halfFull hinv.room.stores]
    rfl

/-- From cycle `t` on the FSM waits in `STATE_IDLE` or in `STATE_START`. -/
structure Waiting (s : AxiDmaWrState c) (i : ℕ → AxiDmaWrInput c) (t : ℕ) : Prop where
  state : ∀ u, t ≤ u → (run s i u).engine.reg.stateReg = .idle ∨ (run s i u).engine.reg.stateReg = .start
  start : ∀ u, t ≤ u → (run s i u).engine.startsBurst (i u) = false

lemma Waiting.not_write (h : Waiting s i t) {u : ℕ} (hu : t ≤ u) :
    (run s i u).engine.reg.stateReg ≠ .write ∧ (run s i u).engine.reg.stateReg ≠ .finishBurst := by
  rcases h.state u hu with hs | hs <;> simp [hs]

lemma Waiting.silent (h : Waiting s i t) : Silent s i t := fun _ hu => wvalid_false (h.not_write hu).1 (h.not_write hu).2

/-- The AW channel is free in the end. -/
lemma Waiting.aw_free (hfair : SlaveFair s i) (h : Waiting s i t) :
    ∃ u, t ≤ u ∧ ∀ v, u ≤ v → (run s i v).engine.reg.mAxiAwvalidReg = false := by
  have hkeep : ∀ v, t ≤ v → (run s i (v + 1)).engine.reg.mAxiAwvalidReg =
      ((run s i v).engine.reg.mAxiAwvalidReg && !(i v).mAxiAwready) := fun v hv => (aw_keep (h.start v hv)).1
  obtain ⟨u, hu, hfree⟩ : ∃ u, t ≤ u ∧ (run s i u).engine.reg.mAxiAwvalidReg = false := by
    cases hv : (run s i t).engine.reg.mAxiAwvalidReg with
    | false => exact ⟨t, le_rfl, hv⟩
    | true =>
      obtain ⟨u, hu, hready⟩ := hfair.awready t hv
      exact ⟨u + 1, Nat.le_succ_of_le hu, by rw [hkeep u hu, hready, Bool.not_true, Bool.and_false]⟩
  refine ⟨u, hu, fun v hv => ?_⟩
  induction v, hv using Nat.le_induction with
  | base => exact hfree
  | succ v hv ih => rw [hkeep v (hu.trans hv), ih, Bool.false_and]

lemma lastFlags_count (l : List AxiBurst) : (l.flatMap AxiBurst.lastFlags).count true = l.length := by
  induction l with
  | nil => rfl
  | cons b l ih =>
    rw [List.flatMap_cons, List.count_append, ih, List.length_cons, Nat.add_comm, AxiBurst.lastFlags, List.count_append,
      List.count_replicate]
    rfl

/-- All bursts are complete then. -/
lemma Waiting.finished (hquiet : Quiet s) (hin : ∀ t, InputOk (i t)) (hfair : SlaveFair s i) (h : Waiting s i t) :
    ∃ u, t ≤ u ∧ ∀ v, u ≤ v → (run s i v).engine.reg.mAxiAwvalidReg = false ∧
      (run s i v).finished = (run s i v).bursts.length := by
  obtain ⟨u, hu, hfree⟩ := h.aw_free hfair
  obtain ⟨w, hw, hdrained⟩ := h.silent.drained hquiet hin hfair
  refine ⟨max u w, hu.trans (le_max_left u w), fun v hv => ?_⟩
  have htv : t ≤ v := (hu.trans (le_max_left u w)).trans hv
  obtain ⟨g, q, hinv, hmade⟩ := Inv.run hquiet hin v
  have haw := hfree v ((le_max_left u w).trans hv)
  have hwritten := (hdrained v ((le_max_right u w).trans hv)).1
  have hflags := hinv.flags
  rw [flagsLeft_nil (h.not_write htv).1 (h.not_write htv).2, List.append_nil, hmade, ← hwritten] at hflags
  have hissued : (run s i v).bursts = (run s i v).issued := by simp [bursts, presented, haw]
  rw [AxiDmaWrSystem.finished, hflags, lastFlags_count, hissued, Nat.min_self]
  exact ⟨haw, rfl⟩

lemma statusInv (hquiet : Quiet s) (hin : ∀ t, InputOk (i t)) (t : ℕ) :
    StatusInv (run s i t).engine (run s i t).answered (run s i t).bursts.length := by
  obtain ⟨g, q, hinv, -⟩ := Inv.run hquiet hin t
  exact hinv.status

lemma answered_succ (t : ℕ) : (run s i (t + 1)).answered = (run s i t).answered +
    ((run s i t).engine.status.mAxiBreadyReg && (i t).mAxiBvalid).toNat := rfl

lemma Waiting.bursts_eq (h : Waiting s i t) {u : ℕ} (hu : t ≤ u) : (run s i u).bursts = (run s i t).bursts := by
  induction u, hu using Nat.le_induction with
  | base => rfl
  | succ u hu ih => exact (bursts_same (h.start u hu)).trans ih

/-- While bursts count, the response of one of them comes. -/
lemma Waiting.response (hquiet : Quiet s) (hin : ∀ t, InputOk (i t)) (hfair : SlaveFair s i) (h : Waiting s i t)
    (hactive : ∀ u, t ≤ u → 0 < (run s i u).engine.status.activeCountReg) :
    ∃ u, t ≤ u ∧ ((run s i u).engine.status.mAxiBreadyReg && (i u).mAxiBvalid) = true := by
  obtain ⟨u, hu, hfinished⟩ := h.finished hquiet hin hfair
  have hdue : (run s i u).answered < (run s i u).finished := by
    have hcount := (statusInv hquiet hin u).count
    have hpos := hactive u hu
    rw [(hfinished u le_rfl).2]
    omega
  obtain ⟨v, hv, hvalid⟩ := hfair.answered u hdue
  cases hr : (run s i v).engine.status.mAxiBreadyReg with
  | true => exact ⟨v, hu.trans hv, by rw [hr, hvalid]; rfl⟩
  | false =>
    refine ⟨v + 1, by omega, ?_⟩
    have hready : (run s i (v + 1)).engine.status.mAxiBreadyReg = true := by
      have hw : writing (run s i v).engine = 0 := if_neg (h.not_write (hu.trans hv)).1
      show ((run s i v).engine.statusNext (i v)).mAxiBreadyReg = true
      rw [AxiDmaWrState.statusNext, (statusInv hquiet hin v).ne_iff, hw, hr,
        decide_eq_true (hactive v (hu.trans hv))]
      rfl
    rw [hready, hfair.held v hvalid hr]
    rfl

/-- All responses come. -/
lemma Waiting.answered (hquiet : Quiet s) (hin : ∀ t, InputOk (i t)) (hfair : SlaveFair s i) (h : Waiting s i t) :
    ∃ u, t ≤ u ∧ (run s i u).engine.status.activeCountReg = 0 := by
  by_contra hnone
  have hactive : ∀ u, t ≤ u → 0 < (run s i u).engine.status.activeCountReg := fun u hu =>
    Nat.pos_of_ne_zero fun hzero => hnone ⟨u, hu, hzero⟩
  -- the responses are no more than the bursts
  have hmono : Monotone fun d => (run s i (t + d)).answered :=
    monotone_nat_of_le_succ fun d => by
      show _ ≤ (run s i (t + d + 1)).answered
      rw [answered_succ]
      exact Nat.le_add_right _ _
  have hbound : ∀ d, (run s i (t + d)).answered ≤ (run s i t).bursts.length := by
    intro d
    have hcount := (statusInv hquiet hin (t + d)).count
    rw [h.bursts_eq (Nat.le_add_right t d)] at hcount
    omega
  obtain ⟨d, hconst⟩ := Progress.eventually_const hmono hbound
  obtain ⟨u, hu, hyes⟩ := Waiting.response hquiet hin hfair (t := t + d)
    ⟨fun v hv => h.state v (by omega), fun v hv => h.start v (by omega)⟩ fun v hv => hactive v (by omega)
  obtain ⟨e, rfl⟩ := Nat.exists_eq_add_of_le hu
  have hnow := hconst (d + e) (Nat.le_add_right d e)
  have hnext := hconst (d + e + 1) (by omega)
  have hsucc := answered_succ (s := s) (i := i) (t + d + e)
  rw [hyes, Bool.toNat_true] at hsucc
  simp only [← Nat.add_assoc] at hnow hnext
  omega

/-- Then a burst may begin. -/
lemma Waiting.free (hquiet : Quiet s) (hin : ∀ t, InputOk (i t)) (hfair : SlaveFair s i) (h : Waiting s i t) :
    ∃ u, t ≤ u ∧ (run s i u).engine.reg.mAxiAwvalidReg = false ∧
      (run s i u).engine.status.activeCountAvReg = true := by
  obtain ⟨u, hu, hfree⟩ := h.aw_free hfair
  obtain ⟨v, hv, hzero⟩ := Waiting.answered hquiet hin hfair (t := u)
    ⟨fun w hw => h.state w (hu.trans hw), fun w hw => h.start w (hu.trans hw)⟩
  refine ⟨v, hu.trans hv, hfree v hv, ?_⟩
  rw [(statusInv hquiet hin v).av, hzero]
  rfl

/-- An FSM that stays in `STATE_IDLE` leaves the writer quiet. -/
lemma exists_quiet (hquiet : Quiet s) (hin : ∀ t, InputOk (i t)) (hfair : SlaveFair s i)
    (hidle : ∀ u, t ≤ u → (run s i u).engine.reg.stateReg = .idle) :
    ∃ u, t ≤ u ∧ ∀ v, u ≤ v → Quiet (run s i v).engine := by
  have h : Waiting s i t := ⟨fun u hu => .inl (hidle u hu), fun u hu => startsBurst_false (by simp [hidle u hu])⟩
  obtain ⟨u, hu, hfree⟩ := h.aw_free hfair
  obtain ⟨w, hw, hdrained⟩ := h.silent.drained hquiet hin hfair
  obtain ⟨z, hz, hzero⟩ := h.answered hquiet hin hfair
  have hdone : ∀ v, z ≤ v → (run s i v).engine.status.activeCountReg = 0 := by
    intro v hv
    have hcount := (statusInv hquiet hin z).count
    have hcount' := (statusInv hquiet hin v).count
    have hmono : (run s i z).answered ≤ (run s i v).answered :=
      monotone_nat_of_le_succ (f := fun t => (run s i t).answered) (fun t => Nat.le_add_right _ _) hv
    rw [h.bursts_eq hz] at hcount
    rw [h.bursts_eq (hz.trans hv)] at hcount'
    omega
  refine ⟨max u (max w z), hu.trans (le_max_left _ _), fun v hv => ?_⟩
  have htv : t ≤ v := by omega
  obtain ⟨g, q, hinv, hmade⟩ := Inv.run hquiet hin v
  obtain ⟨-, -, hav, hwriting, hlt, hwr, hbready⟩ := hinv.status
  rw [hdone v (by omega)] at hav hwriting hwr hbready
  have hpending : (run s i v).engine.out.pending q = [] := by
    have hwritten := (hdrained v (by omega)).1
    rw [← hmade, made] at hwritten
    exact List.self_eq_append_right.mp hwritten
  obtain ⟨hout, hq⟩ := List.append_eq_nil_iff.mp hpending
  refine ⟨hidle v htv, hfree v (by omega), ?_, hdone v (by omega), hav, hlt, ?_, ?_, hq ▸ hinv.room.stores, ?_⟩
  · by_contra hr
    exact absurd (hinv.tready (Bool.eq_true_of_not_eq_false hr)) (by simp [hidle v htv])
  · rw [hwr, Nat.zero_sub, Nat.add_zero, Nat.mod_eq_of_lt hlt]
  · by_contra hb
    exact absurd (hbready (Bool.eq_true_of_not_eq_false hb)) (Nat.not_lt_zero _)
  · by_contra hv'
    rw [if_pos (Bool.eq_true_of_not_eq_false hv')] at hout
    cases hout

end Waiting

/-! ### Every beat of the stream is taken -/

/-- A frame is on its way, and no beat of the stream is taken from cycle `t` on although one is offered. -/
structure Stuck (s : AxiDmaWrState c) (i : ℕ → AxiDmaWrInput c) (t : ℕ) : Prop where
  offered : ∀ u, t ≤ u → (i u).sAxisWriteDataTvalid = true
  refused : ∀ u, t ≤ u → (run s i u).engine.reg.sAxisWriteDataTreadyReg = false
  busy : (run s i t).engine.reg.stateReg = .start ∨ (run s i t).engine.reg.stateReg = .write

section Stuck

variable {t : ℕ}

lemma Inv.writes_eq {x : AxiDmaWrSystem c} {g : WrFrames c} {q : List (WBeat c.axiStrbWidth)} {j : AxiDmaWrInput c}
    (h : Inv x g q) (hs : x.engine.reg.stateReg = .write) :
    x.engine.writes j = x.engine.dataAccept j ∧ x.engine.reg.inputActiveReg = true := by
  cases h.phase with
  | write d left _ hw => exact ⟨by simp [AxiDmaWrState.writes, hs, hw.input.1], hw.input.1⟩
  | idle hs' _ => exact absurd (hs'.symm.trans hs) (by decide)
  | start d hs' _ _ _ => exact absurd (hs'.symm.trans hs) (by decide)
  | finishBurst left hs' _ _ => exact absurd (hs'.symm.trans hs) (by decide)
  | dropData d hs' _ _ _ _ => exact absurd (hs'.symm.trans hs) (by decide)

lemma Stuck.writes (hquiet : Quiet s) (hin : ∀ t, InputOk (i t)) (h : Stuck s i t) {u : ℕ} (hu : t ≤ u) :
    (run s i u).engine.writes (i u) = false := by
  obtain ⟨g, q, hinv, -⟩ := Inv.run hquiet hin u
  by_cases hs : (run s i u).engine.reg.stateReg = .write
  · rw [(hinv.writes_eq hs).1, AxiDmaWrState.dataAccept, h.refused u hu, Bool.false_and]
  · exact (run s i u).engine.writes_eq_false (i u) hs

/-- The FSM stays in `STATE_START` or in `STATE_WRITE`. -/
lemma Stuck.state (hquiet : Quiet s) (hin : ∀ t, InputOk (i t)) (h : Stuck s i t) {u : ℕ} (hu : t ≤ u) :
    (run s i u).engine.reg.stateReg = .start ∨ (run s i u).engine.reg.stateReg = .write := by
  induction u, hu using Nat.le_induction with
  | base => exact h.busy
  | succ u hu ih =>
    show ((run s i u).engine.regNext (i u)).stateReg = .start ∨ ((run s i u).engine.regNext (i u)).stateReg = .write
    rcases ih with hs | hs
    · rw [(run s i u).engine.stateReg_start (i u) hs]
      cases (run s i u).engine.startsBurst (i u) with
      | false => exact .inl rfl
      | true => exact .inr rfl
    · rw [(run s i u).engine.stateReg_write (i u) hs, h.writes hquiet hin hu]
      exact .inr rfl

lemma Stuck.silent (hquiet : Quiet s) (hin : ∀ t, InputOk (i t)) (h : Stuck s i t) : Silent s i t := by
  intro u hu
  rw [AxiDmaWrState.wvalidInt, h.writes hquiet hin hu]
  rcases h.state hquiet hin hu with hs | hs <;> simp [hs]

/-- In `STATE_WRITE` the stream is asked for the next beat. -/
lemma Stuck.not_write (hquiet : Quiet s) (hin : ∀ t, InputOk (i t)) (hfair : SlaveFair s i) (h : Stuck s i t)
    {u : ℕ} (hu : t ≤ u) (hs : (run s i u).engine.reg.stateReg = .write) : False := by
  obtain ⟨v, hv, hfree⟩ := (h.silent hquiet hin).drained hquiet hin hfair
  have hstay : ∀ w, u ≤ w → (run s i w).engine.reg.stateReg = .write := by
    intro w hw
    induction w, hw using Nat.le_induction with
    | base => exact hs
    | succ w hw ih =>
      show ((run s i w).engine.regNext (i w)).stateReg = .write
      rw [(run s i w).engine.stateReg_write (i w) ih, h.writes hquiet hin (hu.trans hw)]
      rfl
  have hstate := hstay (max u v + 1) (by omega)
  have hroom := (hfree (max u v) (le_max_right u v)).2
  have hwrites := h.writes hquiet hin (u := max u v + 1) (by omega)
  obtain ⟨g, q, hinv, -⟩ := Inv.run hquiet hin (max u v + 1)
  have hrefused := h.refused (max u v + 1 + 1) (by omega)
  have hactive := (hinv.writes_eq (j := i (max u v + 1)) hstate).2
  generalize max u v + 1 = w at *
  have hready : ((run s i w).engine.regNext (i w)).sAxisWriteDataTreadyReg = true := by
    simp [AxiDmaWrState.regNext, hstate, AxiDmaWrState.writeNext, hwrites, AxiDmaWrState.wreadyInt, hroom, hactive]
  exact absurd (hrefused.symm.trans hready) Bool.false_ne_true

/-- In `STATE_START` a burst begins. -/
lemma not_stuck (hquiet : Quiet s) (hin : ∀ t, InputOk (i t)) (hfair : SlaveFair s i) : ¬Stuck s i t := by
  intro h
  have hs : ∀ v, t ≤ v → (run s i v).engine.reg.stateReg = .start := fun v hv =>
    (h.state hquiet hin hv).resolve_right fun hw => h.not_write hquiet hin hfair hv hw
  have hb : ∀ v, t ≤ v → (run s i v).engine.startsBurst (i v) = false := by
    intro v hv
    by_contra hb
    have hnext : ((run s i v).engine.regNext (i v)).stateReg = .start := hs (v + 1) (Nat.le_succ_of_le hv)
    rw [(run s i v).engine.stateReg_start (i v) (hs v hv), if_pos (Bool.eq_true_of_not_eq_false hb)] at hnext
    cases hnext
  obtain ⟨u, hu, haw, hav⟩ := Waiting.free hquiet hin hfair (t := t) ⟨fun v hv => .inr (hs v hv), hb⟩
  have hgo : (run s i u).engine.startsBurst (i u) = true := by
    simp [AxiDmaWrState.startsBurst, hs u hu, haw, hav, h.offered u hu]
  exact absurd ((hb u hu).symm.trans hgo) Bool.false_ne_true

end Stuck

/-- A beat that is offered while a frame is on its way is taken. -/
theorem taken_grows (hquiet : Quiet s) (hin : ∀ t, InputOk (i t)) (hfair : SlaveFair s i) (hheld : StreamHeld s i)
    {t : ℕ} {g : WrFrames c} {q : List (WBeat c.axiStrbWidth)} (h : Inv (run s i t) g q) (hbusy : g.busy ≠ none)
    (hoffered : (i t).sAxisWriteDataTvalid = true) : ∃ u, t ≤ u ∧ (run s i u).engine.dataAccept (i u) = true := by
  by_contra hnone
  have hno : ∀ u, t ≤ u → (run s i u).engine.dataAccept (i u) = false := fun u hu =>
    Bool.eq_false_of_not_eq_true fun hyes => hnone ⟨u, hu, hyes⟩
  have hwaits : ∀ u, t ≤ u → (i u).sAxisWriteDataTvalid = true ∧
      (run s i u).engine.reg.sAxisWriteDataTreadyReg = false := by
    intro u hu
    induction u, hu using Nat.le_induction with
    | base =>
      have hat := hno t le_rfl
      rw [AxiDmaWrState.dataAccept, hoffered, Bool.and_true] at hat
      exact ⟨hoffered, hat⟩
    | succ u hu ih =>
      have hvalid := hheld u ih.1 ih.2
      have hat := hno (u + 1) (Nat.le_succ_of_le hu)
      rw [AxiDmaWrState.dataAccept, hvalid, Bool.and_true] at hat
      exact ⟨hvalid, hat⟩
  refine not_stuck hquiet hin hfair (t := t) ⟨fun u hu => (hwaits u hu).1, fun u hu => (hwaits u hu).2, ?_⟩
  cases h.phase with
  | idle _ hidle => exact absurd hidle hbusy
  | start d hs => exact .inl hs
  | write d left hs => exact .inr hs
  | finishBurst left _ hidle => exact absurd hidle hbusy
  | dropData d _ _ _ _ hready => exact absurd ((hwaits t le_rfl).2.symm.trans hready) Bool.false_ne_true

/-! ### Every descriptor is taken -/

/-- A burst that the stream has left is filled up. -/
lemma finishBurst_ends (hquiet : Quiet s) (hin : ∀ t, InputOk (i t)) (hfair : SlaveFair s i) (left : ℕ) :
    Progress.LeadsTo
      (fun t => (run s i t).engine.reg.stateReg = .finishBurst ∧ Counting (run s i t).engine.reg left)
      (fun t => (run s i t).engine.reg.stateReg = .idle) := by
  -- a cycle with room in the output FIFO comes, otherwise it drains
  have hroom : ∀ t, (run s i t).engine.reg.stateReg = .finishBurst →
      ∃ u, t ≤ u ∧ (run s i u).engine.wreadyInt = true := by
    intro t hs
    by_contra hnone
    have hno : ∀ u, t ≤ u → (run s i u).engine.wreadyInt = false := fun u hu =>
      Bool.eq_false_of_not_eq_true fun hyes => hnone ⟨u, hu, hyes⟩
    have hstay : ∀ u, t ≤ u → (run s i u).engine.reg.stateReg = .finishBurst := by
      intro u hu
      induction u, hu using Nat.le_induction with
      | base => exact hs
      | succ u hu ih =>
        show ((run s i u).engine.regNext (i u)).stateReg = .finishBurst
        rw [(run s i u).engine.stateReg_finishBurst (i u) ih, hno u hu]
        rfl
    have hsilent : Silent s i t := fun u hu => by
      simp [AxiDmaWrState.wvalidInt, AxiDmaWrState.writes, hstay u hu, hno u hu]
    obtain ⟨u, hu, hfree⟩ := hsilent.drained hquiet hin hfair
    have hhalf := (hfree u le_rfl).2
    have hat := hno (u + 1) (by omega)
    rw [AxiDmaWrState.wreadyInt, hhalf] at hat
    cases hat
  have hwait : ∀ left t, (run s i t).engine.reg.stateReg = .finishBurst ∧ Counting (run s i t).engine.reg left →
      ¬(run s i t).engine.wreadyInt = true → (run s i (t + 1)).engine.reg.stateReg = .finishBurst ∧
        Counting (run s i (t + 1)).engine.reg left := by
    intro left t ht hr
    obtain ⟨hs, hcount⟩ := ht
    have hreg : (run s i (t + 1)).engine.reg = (run s i t).engine.defaultNext (i t) := by
      show (run s i t).engine.regNext (i t) = _
      simp [AxiDmaWrState.regNext, hs, AxiDmaWrState.finishBurstNext, hr]
    rw [hreg]
    exact ⟨hs, hcount.count, hcount.last, hcount.lt⟩
  induction left with
  | zero =>
    refine Progress.leadsTo_of_event (hwait 0) (fun t ht hr => ?_) fun t ht => hroom t ht.1
    show ((run s i t).engine.regNext (i t)).stateReg = .idle
    rw [(run s i t).engine.stateReg_finishBurst (i t) ht.1, hr, ht.2.last]
    rfl
  | succ left ih =>
    refine Progress.LeadsTo.trans (Progress.leadsTo_of_event (hwait (left + 1)) (fun t ht hr => ?_) fun t ht =>
      hroom t ht.1) ih
    have hstate := (run s i t).engine.stateReg_finishBurst (i t) ht.1
    rw [hr, ht.2.last, decide_eq_false (Nat.succ_ne_zero left)] at hstate
    refine ⟨hstate, ?_⟩
    show Counting ((run s i t).engine.regNext (i t)) left
    apply ht.2.next (c := c) <;> simp [AxiDmaWrState.regNext, ht.1, AxiDmaWrState.finishBurstNext, hr]

/-- A descriptor that is offered between two frames is taken. -/
theorem accepted_grows (hquiet : Quiet s) (hin : ∀ t, InputOk (i t)) (hfair : SlaveFair s i) (hheld : DescHeld s i)
    {t : ℕ} {g : WrFrames c} {q : List (WBeat c.axiStrbWidth)} (h : Inv (run s i t) g q) (hbusy : g.busy = none)
    (hoffered : (i t).sAxisWriteDescValid = true) : ∃ u, t ≤ u ∧ (run s i u).engine.descAccept (i u) = true := by
  by_contra hnone
  have hno : ∀ u, t ≤ u → (run s i u).engine.descAccept (i u) = false := fun u hu =>
    Bool.eq_false_of_not_eq_true fun hyes => hnone ⟨u, hu, hyes⟩
  have hvalid : ∀ u, t ≤ u → (i u).sAxisWriteDescValid = true := by
    intro u hu
    induction u, hu using Nat.le_induction with
    | base => exact hoffered
    | succ u hu ih =>
      refine hheld u ih ?_
      have hat := hno u hu
      rw [AxiDmaWrState.descAccept, ih, Bool.and_true] at hat
      exact hat
  obtain ⟨v, hv, hidle⟩ : ∃ v, t ≤ v ∧ (run s i v).engine.reg.stateReg = .idle := by
    cases h.phase with
    | idle hs => exact ⟨t, le_rfl, hs⟩
    | finishBurst left hs _ hcount => exact finishBurst_ends hquiet hin hfair left t ⟨hs, hcount⟩
    | start d _ hd => exact absurd (hbusy.symm.trans hd) (by simp)
    | write d left _ hw => exact absurd (hbusy.symm.trans hw.busy) (by simp)
    | dropData d _ hd => exact absurd (hbusy.symm.trans hd) (by simp)
  have hstay : ∀ u, v ≤ u → (run s i u).engine.reg.stateReg = .idle := by
    intro u hu
    induction u, hu using Nat.le_induction with
    | base => exact hidle
    | succ u hu ih =>
      show ((run s i u).engine.regNext (i u)).stateReg = .idle
      rw [(run s i u).engine.stateReg_idle (i u) ih, hno u (hv.trans hu)]
      rfl
  obtain ⟨u, hu, -, hav⟩ := Waiting.free hquiet hin hfair (t := v)
    ⟨fun u hu => .inl (hstay u hu), fun u hu => startsBurst_false (by simp [hstay u hu])⟩
  have hready : ((run s i u).engine.regNext (i u)).sAxisWriteDescReadyReg = true := by
    simp [AxiDmaWrState.regNext, hstay u hu, AxiDmaWrState.idleNext, hno u (hv.trans hu), hav]
  have hat : (((run s i u).engine.regNext (i u)).sAxisWriteDescReadyReg && (i (u + 1)).sAxisWriteDescValid) = false :=
    hno (u + 1) (by omega)
  rw [hready, hvalid (u + 1) (by omega)] at hat
  cases hat

/-- The bursts are legal and end with `wlast`, a burst stays on the AW channel until it is accepted, and the stores
are those of the frames. With a fair card memory every descriptor and every beat is taken and stored. -/
theorem axi_writer_ok (s : AxiDmaWrState c) (i : ℕ → AxiDmaWrInput c) (hquiet : Quiet s) (hin : ∀ t, InputOk (i t))
    (t : ℕ) : (∀ b ∈ (run s i t).bursts, b.Legal c.toAxiConfig) ∧
    ((i t).mAxiAwready = false → (run s i t).presented ≠ [] → (run s i (t + 1)).presented = (run s i t).presented) ∧
    (run s i t).written.map WBeat.wlast <+: (run s i t).bursts.flatMap AxiBurst.lastFlags ∧
    ∃ g : WrFrames c, g.Framed ∧ g.accepted = (run s i t).accepted ∧ g.taken = (run s i t).taken ∧
      (run s i t).stored.filter CardStore.effective <+: g.stores.filter CardStore.effective ∧
      (SlaveFair s i →
        (∃ u, t ≤ u ∧ g.stores.filter CardStore.effective <+: (run s i u).stored.filter CardStore.effective) ∧
        (StreamHeld s i → g.busy ≠ none → (i t).sAxisWriteDataTvalid = true →
          ∃ u, t ≤ u ∧ (run s i u).engine.dataAccept (i u) = true) ∧
        (DescHeld s i → g.busy = none → (i t).sAxisWriteDescValid = true →
          ∃ u, t ≤ u ∧ (run s i u).engine.descAccept (i u) = true)) := by
  obtain ⟨g, q, hinv, hmade⟩ := Inv.run hquiet hin t
  refine ⟨hinv.legal, presented_held, hinv.wlast_begins, g, hinv.framed, hinv.accepted.symm, hinv.taken.symm,
    hinv.stored_begins, fun hfair => ⟨?_, ?_, ?_⟩⟩
  · obtain ⟨u, hu, hstored⟩ := stored_grows hquiet hin hfair t
    rw [← hmade] at hstored
    refine ⟨u, hu, ?_⟩
    rw [← hinv.stores]
    exact hstored.filter _
  · exact fun hheld hbusy hoffered => taken_grows hquiet hin hfair hheld hinv hbusy hoffered
  · exact fun hheld hbusy hoffered => accepted_grows hquiet hin hfair hheld hinv hbusy hoffered

/-! ### A card memory that answers at once -/

section Served

variable (descs : List AxiDesc) (beats : List (AxisBeat c.axiStrbWidth)) (s : AxiDmaWrState c)

/-- The descriptors and the beats that are not taken yet are offered. -/
def serve (x : AxiDmaWrSystem c) : AxiDmaWrInput c where
  sAxisWriteDesc := descs.getD x.accepted.length ⟨0, 0⟩
  sAxisWriteDescValid := decide (x.accepted.length < descs.length)
  sAxisWriteData := beats.getD x.taken.length ⟨fun _ => 0, fun _ => false, false⟩
  sAxisWriteDataTvalid := decide (x.taken.length < beats.length)
  mAxiAwready := true
  mAxiWready := true
  mAxiBvalid := decide (x.answered < x.finished)

def served : ℕ → AxiDmaWrSystem c
  | 0 => ⟨s, [], [], [], [], 0⟩
  | t + 1 => (served t).step (serve descs beats (served t))

def servedInput (t : ℕ) : AxiDmaWrInput c := serve descs beats (served descs beats s t)

lemma run_served (t : ℕ) : run s (servedInput descs beats s) t = served descs beats s t := by
  induction t with
  | zero => rfl
  | succ t ih => rw [run, ih, served, servedInput]

lemma finished_mono (i : ℕ → AxiDmaWrInput c) (t : ℕ) : (run s i t).finished ≤ (run s i (t + 1)).finished := by
  have hissued := (issued_mono s i (Nat.le_succ t)).length_le
  have hwritten := ((written_mono s i (Nat.le_succ t)).map WBeat.wlast).sublist.count_le true
  exact min_le_min hissued hwritten

lemma served_fair : SlaveFair s (servedInput descs beats s) := by
  refine ⟨fun t _ => ⟨t, le_rfl, rfl⟩, fun t _ => ⟨t, le_rfl, rfl⟩, fun t hlt => ⟨t, le_rfl, ?_⟩, fun t hv hr => ?_⟩
  · rw [run_served] at hlt
    exact decide_eq_true hlt
  · have hlt : (run s (servedInput descs beats s) t).answered < (run s (servedInput descs beats s) t).finished := by
      rw [run_served]
      exact of_decide_eq_true hv
    have hsame : (run s (servedInput descs beats s) (t + 1)).answered =
        (run s (servedInput descs beats s) t).answered := by
      rw [run, step, hr]
      rfl
    have hmono := finished_mono s (servedInput descs beats s) t
    refine decide_eq_true ?_
    rw [← run_served, hsame]
    omega

lemma served_ok (hdescs : ∀ d ∈ descs, 1 ≤ d.len ∧ d.len < 2 ^ 32)
    (hbeats : ∀ b ∈ beats, b.tlast = true → ∃ m, ∀ j, b.tkeep j = decide (j.val < m)) (t : ℕ) :
    InputOk (servedInput descs beats s t) := by
  refine ⟨fun hv => ?_, fun hv _ hl => ?_⟩
  · have hlt : (served descs beats s t).accepted.length < descs.length := of_decide_eq_true hv
    apply hdescs
    show descs.getD _ _ ∈ descs
    rw [List.getD_eq_getElem _ _ hlt]
    exact List.getElem_mem hlt
  · have hlt : (served descs beats s t).taken.length < beats.length := of_decide_eq_true hv
    refine hbeats _ ?_ hl
    show beats.getD _ _ ∈ beats
    rw [List.getD_eq_getElem _ _ hlt]
    exact List.getElem_mem hlt

end Served

/-- A frame of 100 bytes for card address 4032, which goes across a page in two bursts. -/
theorem axi_writer_served :
    let c : AxiDmaWrConfig := ⟨⟨6, 16, 16, by decide, by decide, by decide, by decide⟩, true⟩
    let beats : List (AxisBeat c.axiStrbWidth) :=
      [⟨fun j => BitVec.ofNat 8 j, fun _ => true, false⟩, ⟨fun j => BitVec.ofNat 8 j, fun j => decide (j.val < 36), true⟩]
    let i := servedInput [⟨4032, 100⟩] beats (AxiDmaWrState.reset c)
    ∃ g : WrFrames c, g.Framed ∧ g.taken = (run (AxiDmaWrState.reset c) i 20).taken ∧
      ∃ u, 20 ≤ u ∧ g.stores.filter CardStore.effective <+:
        (run (AxiDmaWrState.reset c) i u).stored.filter CardStore.effective := by
  intro c beats i
  have hin : ∀ t, InputOk (i t) := by
    apply served_ok
    · intro d hd
      rw [List.mem_singleton.mp hd]
      norm_num
    · intro b hb hl
      rcases List.mem_pair.mp hb with rfl | rfl
      · cases hl
      · exact ⟨36, fun j => rfl⟩
  obtain ⟨-, -, -, g, hframed, -, htaken, -, hfair⟩ :=
    axi_writer_ok (AxiDmaWrState.reset c) i (reset_quiet c) hin 20
  exact ⟨g, hframed, htaken, (hfair (served_fair _ _ _)).1⟩

end AxiDmaWrSystem

end FpgaPcie
