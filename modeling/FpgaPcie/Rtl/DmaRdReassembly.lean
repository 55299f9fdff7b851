import FpgaPcie.Lib.Progress
import FpgaPcie.Rtl.DmaRdStep

/-!
# Reassembly

From the start pulse on, the beats accepted on the stream are a prefix of the beats of the
descriptor; with a fair host and a fair consumer they become all of them, and then the engine
is quiet again.
-/

namespace FpgaPcie

variable {c : RdConfig} {mem : HostMem} {address length : ℕ}

/-! ### The first edge -/

section First

variable {s : RdState c} {i : RdInput c}

lemma RdState.Quiet.take (hq : s.Quiet) (hstart : i.descTxRdReqStart = true) :
    s.req.take i = true := by
  simp [ReqReg.take, hq.req, hstart, hq.startReg]

lemma RdState.Quiet.emit (hq : s.Quiet) : s.emit = false := by
  simp [RdState.emit, hq.tr]

lemma RdState.Quiet.accept (hq : s.Quiet) : s.req.accept i = false := by
  simp [ReqReg.accept, hq.valid]

lemma ReqInv.init (haddr : i.descTxRdReqAddress < 2 ^ 64) (hpos : 0 < i.descTxRdReqLength)
    (hlen : i.descTxRdReqLength < 2 ^ 32) (hq : s.Quiet) (hstart : i.descTxRdReqStart = true) :
    ReqInv i.descTxRdReqAddress i.descTxRdReqLength (rdStep s i) 0 := by
  have ht := hq.take hstart
  refine ⟨?_, ?_, fun _ => ⟨reqCount_pos hpos, ?_, ?_⟩, ?_⟩
  · simp [rdStep, reqNext_take ht]
  · simp [rdStep, reqNext_take ht]
  · have ha : reqAddress c i.descTxRdReqAddress 0 = i.descTxRdReqAddress := by
      rw [reqAddress, Nat.mul_zero, Nat.add_zero, Nat.mod_eq_of_lt haddr]
    simp only [rdStep, reqNext_take ht]
    exact ⟨rfl, rfl, trCycleNext_eq hlen, rfl, ha.symm⟩
  · simp [rdStep, reqNext_take ht, tagStep, hq.req, RdState.allocated]
  · simp [rdStep, reqNext_take ht]

lemma TagInv.init (hpos : 0 < i.descTxRdReqLength) (hq : s.Quiet)
    (hstart : i.descTxRdReqStart = true) :
    TagInv i.descTxRdReqLength (rdStep s i) .start := by
  have ht := hq.take hstart
  have hR : 0 < reqCount c i.descTxRdReqLength := reqCount_pos hpos
  have halloc : (rdStep s i).allocated 0 = 0 := by
    simp [RdState.allocated, rdStep, reqNext_take ht]
  refine ⟨le_rfl, ?_, ?_, ?_, fun k _ hk => ?_, fun tag hen => ?_, fun hrd => ?_, fun _ _ => ?_,
    fun _ hz => ?_⟩
  · have hfifo : (rdStep s i).tag.opTagFifo.words = [] := by
      simp [rdStep, tagStep, hq.we, hq.rd, hq.tagFifo]
    simp [RdProgress.start, halloc, hfifo]
  · simp [rdStep, tagStep, hq.we, reqNext_take ht]
  · simp [rdStep, tagStep, hq.req, reqNext_take ht, RdProgress.start]
  · simp only [RdProgress.start, Nat.zero_add] at hk
    simp only [RdProgress.start, halloc, Nat.not_lt_zero, if_false]
    rw [Nat.mod_eq_of_lt hk]
    simp [rdStep, tagStep, hq.rd, hq.we, hq.table k hk]
  · simp [rdStep, trStep, rdEnNext, hq.tr] at hen
  · simp [rdStep, tagStep, hq.req, hq.rd, reqNext_take ht] at hrd
  · refine ⟨le_rfl, ?_, ?_⟩
    · show 0 < endBeat i.descTxRdReqLength 0
      unfold endBeat
      omega
    · simp [RdProgress.start, rdStep, trStep, RdState.cycleNext, hq.tr]
  · have hz' : 0 = reqCount c i.descTxRdReqLength := hz
    omega

lemma DataInv.init (mem : HostMem) (hq : s.Quiet) :
    DataInv mem i.descTxRdReqAddress i.descTxRdReqLength ((RdSystem.fresh s).step i) .start := by
  have howed : ∀ tag, ((RdSystem.fresh s).step i).owed tag = [] := by
    intro tag
    simp [RdSystem.step, RdSystem.owedNext, RdSystem.fresh, hq.accept]
  refine ⟨fun k _ hk => ⟨?_, ?_, fun h => absurd h (Nat.not_lt_zero k), fun _ => howed _⟩, fun _ _ => rfl,
    fun tag _ => howed tag⟩
  · simp [RdProgress.start]
  · simp only [RdProgress.start, Nat.zero_add] at hk
    have hwords : (rdStep s i).arrivedWords k = [] := by
      simp [RdState.arrivedWords, rdStep, cpldFifoStep, recvStep, RdState.stores, hq.recv,
        hq.rdEn k, hq.wrEn k hk, hq.dataFifo k hk]
    simp only [RdProgress.start, Nat.max_eq_left (Nat.zero_le _), RdSystem.step, RdSystem.fresh]
    rw [Nat.mod_eq_of_lt hk, hwords]
    exact Carries.nil _

lemma RecvInv.init (hq : s.Quiet) (hstart : i.descTxRdReqStart = true) :
    RecvInv i.descTxRdReqLength ((RdSystem.fresh s).step i) .start := by
  have ht := hq.take hstart
  have hidle : (rdStep s i).recv.recvStateReg = .idle := by
    simp [rdStep, recvStep, hq.recv, recvStart, hq.startReg]
  refine ⟨?_, fun _ => ⟨hidle, ?_, ?_, rfl⟩, fun _ hs => ?_, fun hr => ?_⟩
  · simp [owedTotal, RdProgress.start, RdSystem.step, RdSystem.owedNext, RdSystem.fresh, hq.accept]
  · simp [RdSystem.step, RdSystem.fresh, rdStep, reqNext_take ht]
  · simp [RdSystem.step, RdSystem.fresh, rdStep, reqNext_take ht]
  · simp [RdSystem.step, RdSystem.fresh, rdStep, reqNext_take ht] at hs
  · have hr' : (rdStep s i).recv.recvStateReg = .start := hr
    rw [hidle] at hr'
    cases hr'

lemma OutInv.init (mem : HostMem) (hc : c.Wide512) (hpos : 0 < i.descTxRdReqLength)
    (hlen : i.descTxRdReqLength < 2 ^ 32) (hq : s.Quiet) (hstart : i.descTxRdReqStart = true) :
    OutInv mem i.descTxRdReqAddress i.descTxRdReqLength ((RdSystem.fresh s).step i) .start := by
  have ht := hq.take hstart
  have htr : ((RdSystem.fresh s).step i).engine.tr.trStateReg = .start := by
    simp [RdSystem.step, RdSystem.fresh, rdStep, trStep, trStateNext, hq.tr, hstart, hq.startReg]
  have hstores : (rdStep s i).out.Stores outputFifoAddrWidthRd [] := by
    have h := OutFifo.step_stores hq.outFifo s.emit (fun _ => by simp [outputFifoAddrWidthRd])
      (axisInit s i (reqNext c s.req i s.tag.opTagFifoWe s.tag.opTagFifoWrTag).descTxRdReqLengthReg)
      i.mAxisTlpTready
    rw [hq.emit] at h
    simpa [rdStep, hq.emit] using h
  have hvalid : (rdStep s i).out.outValidReg = false := by
    simp [rdStep, OutFifo.step, OutFifo.load_eq hq.outFifo, hq.outValid]
  have hbeats : ((RdSystem.fresh s).step i).delivered ++
      ((RdSystem.fresh s).step i).engine.out.pending [] = [] := by
    simp [RdSystem.step, RdSystem.fresh, OutFifo.pending, hvalid, hq.outValid]
  refine ⟨fun _ => ⟨?_, ?_⟩, fun hi => ?_, [], hstores, ?_, ?_, fun tag hen => ?_, fun hrd => ?_,
    ?_, ?_⟩
  · simp only [RdProgress.start]
    omega
  · simp only [RdSystem.step, RdSystem.fresh, rdStep, trStep, RdState.outputCycleNext, hq.tr, hstart,
      hq.startReg, reqNext_take ht, RdProgress.start]
    rw [beatCycles_eq hlen, hc.beatCount]
    rfl
  · rw [htr] at hi
    cases hi
  · simp
  · simp
  · simp [RdSystem.step, RdSystem.fresh, rdStep, trStep, rdEnNext, hq.tr] at hen
  · simp [RdSystem.step, RdSystem.fresh, rdStep, tagStep, hq.req, hq.rd, reqNext_take ht] at hrd
  · rw [hbeats]
    rfl
  · rw [hbeats]
    intro k b hb
    cases hb

/-- The start pulse brings a quiet engine to the beginning of the descriptor. -/
theorem RdInv.init (mem : HostMem) (hc : c.Wide512) (haddr : i.descTxRdReqAddress < 2 ^ 64)
    (hpos : 0 < i.descTxRdReqLength) (hlen : i.descTxRdReqLength < 2 ^ 32) (hq : s.Quiet)
    (hstart : i.descTxRdReqStart = true) :
    RdInv mem i.descTxRdReqAddress i.descTxRdReqLength ((RdSystem.fresh s).step i) .start :=
  ⟨ReqInv.init haddr hpos hlen hq hstart, TagInv.init hpos hq hstart, DataInv.init mem hq,
    RecvInv.init hq hstart, OutInv.init mem hc hpos hlen hq hstart⟩

end First

/-! ### The last edge -/

section Last

variable {x : RdSystem c} {g : RdProgress}

lemma RdInv.emitted_le (h : RdInv mem address length x g) : g.emitted ≤ (length + 63) / 64 := by
  cases htr : x.engine.tr.trStateReg with
  | idle => exact (h.out.idle htr).le
  | start => exact (h.out.start htr).1.le

lemma RdInv.delivered_le (h : RdInv mem address length x g) :
    x.delivered.length ≤ (length + 63) / 64 := by
  obtain ⟨q, hq⟩ := h.out.queue
  have hcount := hq.count
  rw [List.length_append] at hcount
  have := h.emitted_le
  omega

lemma RdInv.delivered_ok (h : RdInv mem address length x g) :
    StreamOk mem address length x.delivered := by
  obtain ⟨q, hq⟩ := h.out.queue
  exact hq.beats.left

lemma exists_owner {m : ℕ} (p tag : ℕ) (ht : tag < m) : ∃ k, p ≤ k ∧ k < p + m ∧ k % m = tag := by
  have hp := Nat.mod_lt p (show 0 < m by omega)
  have hd := Nat.div_add_mod p m
  by_cases hge : p % m ≤ tag
  · refine ⟨p + (tag - p % m), by omega, by omega, ?_⟩
    have he : p + (tag - p % m) = m * (p / m) + tag := by omega
    rw [he, Nat.mul_add_mod, Nat.mod_eq_of_lt ht]
  · refine ⟨p + (tag + m - p % m), by omega, by omega, ?_⟩
    have he : p + (tag + m - p % m) = m * (p / m + 1) + tag := by
      rw [Nat.mul_succ]
      omega
    rw [he, Nat.mul_add_mod, Nat.mod_eq_of_lt ht]

lemma RdInv.drained (h : RdInv mem address length x g)
    (hall : (length + 63) / 64 ≤ x.delivered.length) :
    g.emitted = (length + 63) / 64 ∧ x.engine.out.Stores outputFifoAddrWidthRd [] ∧
      x.engine.out.outValidReg = false ∧ x.engine.tag.opTagFifoRd = false := by
  obtain ⟨q, hq⟩ := h.out.queue
  have hcount := hq.count
  have hle := h.emitted_le
  rw [List.length_append, OutFifo.pending, List.length_append] at hcount
  have hqnil : q = [] := List.length_eq_zero_iff.mp (by omega)
  refine ⟨by omega, hqnil ▸ hq.stores, ?_, ?_⟩
  · by_contra hv
    simp only [Bool.not_eq_false] at hv
    rw [if_pos hv, List.length_singleton] at hcount
    omega
  · by_contra hr
    exact hq.release (by simpa using hr) hqnil

lemma RdInv.requested_of_delivered (h : RdInv mem address length x g)
    (hall : (length + 63) / 64 ≤ x.delivered.length) :
    g.popped = reqCount c length ∧ g.requested = reqCount c length := by
  obtain ⟨hemitted, -, -, hrd⟩ := h.drained hall
  have hpop : g.popped = reqCount c length := by
    by_contra hne
    have hpl := h.popped_le
    have := (h.tag.current hrd (by omega)).2.1
    have := endBeat_le_all length g.popped
    omega
  exact ⟨hpop, le_antisymm h.req.requested_le (hpop ▸ h.tag.popped_le)⟩

/-- When every beat has been accepted downstream the engine is quiet and nothing is owed. -/
theorem RdInv.quiet_of_delivered (hc : c.Wide512) (h : RdInv mem address length x g)
    (hall : (length + 63) / 64 ≤ x.delivered.length) :
    x.engine.Quiet ∧ ∀ tag, x.owed tag = [] := by
  obtain ⟨hemitted, hstores, hvalid, hrd⟩ := h.drained hall
  obtain ⟨hpop, hreq⟩ := h.requested_of_delivered hall
  have htr : x.engine.tr.trStateReg = .idle := by
    cases htr : x.engine.tr.trStateReg with
    | idle => rfl
    | start =>
      have := (h.out.start htr).1
      omega
  have hstate : x.engine.req.reqStateReg = .idle := by
    cases hs : x.engine.req.reqStateReg with
    | idle => rfl
    | start =>
      have := (h.req.start hs).1
      omega
  obtain ⟨-, hv, hw, hstart⟩ := h.req.idle hstate
  have hslots : ∀ tag, tag < 2 ^ c.pcieTagWidth →
      x.engine.arrivedWords tag = [] ∧ x.owed tag = [] ∧ x.engine.tag.tagTableInfo tag = 0 := by
    intro tag ht
    obtain ⟨k, hk, hkm, hkt⟩ := exists_owner g.popped tag ht
    have hslot := h.data.slot k hk hkm
    have harr := h.data.arrived k (by omega)
    have hN : (length + 63) / 64 ≤ 8 * k := by
      rw [hpop, hc.reqCount] at hk
      omega
    rw [← hkt]
    refine ⟨hslot.words.eq_nil (by omega), hslot.none (by omega), ?_⟩
    rw [h.tag.table k hk hkm, RdState.allocated, hv, Bool.toNat_false, if_neg (by omega)]
  have howed : ∀ tag, x.owed tag = [] := by
    intro tag
    by_cases ht : tag < 2 ^ c.pcieTagWidth
    · exact (hslots tag ht).2.1
    · exact h.data.owed tag (by omega)
  have hrecv : x.engine.recv.recvStateReg = .idle := by
    cases hr : x.engine.recv.recvStateReg with
    | idle => rfl
    | start =>
      have hlt := (h.recv.start hr).2.2.2
      have htotal := h.recv.total
      have hzero : owedTotal c x.owed = 0 := by simp [owedTotal, howed]
      rw [hreq, hc.reqCount] at htotal
      omega
  refine ⟨⟨hstate, hrecv, htr, hstart, hv, hw, hrd, ?_, fun tag ht => (hslots tag ht).2.2,
    fun tag ht => ?_, fun tag => ?_, fun tag ht => ?_, hstores, hvalid⟩, howed⟩
  · have hf := h.tag.fifo
    rw [RdState.allocated, hv, Bool.toNat_false, hreq, hpop] at hf
    exact List.length_eq_zero_iff.mp (by omega)
  · have hnil := (List.append_eq_nil_iff.mp (hslots tag ht).1).2
    by_contra hwe
    simp [hwe] at hnil
  · by_contra hen
    have := (h.tag.rdEn tag (by simpa using hen)).2
    omega
  · exact (List.append_eq_nil_iff.mp (hslots tag ht).1).1

/-- A quiet engine that is not started and gets no completion stays quiet. -/
theorem RdState.Quiet.step {s : RdState c} {i : RdInput c} (hq : s.Quiet)
    (hstart : i.descTxRdReqStart = false) : (rdStep s i).Quiet := by
  have ht : s.req.take i = false := by simp [ReqReg.take, hstart]
  have hreq := fun we wrTag => @reqNext_idle c s.req i we wrTag hq.req ht
  have hstores := OutFifo.step_stores hq.outFifo s.emit (fun _ => by simp [outputFifoAddrWidthRd])
    (axisInit s i (reqNext c s.req i s.tag.opTagFifoWe s.tag.opTagFifoWrTag).descTxRdReqLengthReg)
    i.mAxisTlpTready
  rw [hq.emit] at hstores
  refine ⟨?_, ?_, ?_, ?_, ?_, ?_, ?_, ?_, ?_, ?_, ?_, ?_, ?_, ?_⟩
  · simp [rdStep, hreq, hq.req]
  · simp [rdStep, recvStep, hq.recv, recvStart, hq.startReg]
  · simp [rdStep, trStep, trStateNext, hq.tr, hstart]
  · simp [rdStep, hreq, hstart]
  · simp [rdStep, hreq]
  · simp [rdStep, tagStep, hq.we, hreq]
  · simp [rdStep, tagStep, hq.rd, hq.rdEn, hreq, hq.req]
  · simp [rdStep, tagStep, hq.we, hq.rd, hq.tagFifo]
  · intro tag htag
    simp [rdStep, tagStep, hq.rd, hq.we, hq.table tag htag]
  · intro tag _
    simp [rdStep, recvStep, RdState.stores, hq.recv]
  · intro tag
    simp [rdStep, trStep, rdEnNext, hq.tr]
  · intro tag htag
    simp [rdStep, cpldFifoStep, hq.wrEn tag htag, hq.rdEn tag, hq.dataFifo tag htag]
  · simpa [rdStep, hq.emit] using hstores
  · simp [rdStep, OutFifo.step, OutFifo.load_eq hq.outFifo, hq.outValid]

end Last

/-! ### Whole runs -/

def RdProgress.run (g : RdProgress) (x : RdSystem c) (i : ℕ → RdInput c) : ℕ → RdProgress
  | 0 => g
  | t + 1 => (g.run x i t).next (x.run i t) (i t)

section Runs

variable {x : RdSystem c} {g : RdProgress} {i : ℕ → RdInput c}

theorem RdInv.run (hc : c.Wide512) (haddr : address % 4 = 0) (hpos : 0 < length)
    (hlen : length < 2 ^ 32) (hlow : ∀ t, (i t).descTxRdReqStart = false)
    (hlegal : ∀ t, (x.run i t).Legal mem (i t)) (h : RdInv mem address length x g) (t : ℕ) :
    RdInv mem address length (x.run i t) (g.run x i t) := by
  induction t with
  | zero => exact h
  | succ t ih => exact ih.step hc haddr hpos hlen (hlow t) (hlegal t)

/-- The sum of the counters that a run moves. -/
def progressSum (g : RdProgress) (x : RdSystem c) (i : ℕ → RdInput c) (t : ℕ) : ℕ :=
  (g.run x i t).requested + (g.run x i t).received + (g.run x i t).emitted +
    (g.run x i t).popped + (x.run i t).delivered.length

/-- No counter moves in this cycle. -/
structure Stalled (x : RdSystem c) (i : RdInput c) : Prop where
  accept : x.engine.req.accept i = false
  cplAccept : x.engine.cplAccept i = false
  emit : x.engine.emit = false
  rd : x.engine.tag.opTagFifoRd = false
  deliver : (x.engine.out.outValidReg && i.mAxisTlpTready) = false

lemma progressSum_succ (t : ℕ) : progressSum g x i (t + 1) = progressSum g x i t +
    (((x.run i t).engine.req.accept (i t)).toNat + ((x.run i t).engine.cplAccept (i t)).toNat +
      (x.run i t).engine.emit.toNat + (x.run i t).engine.tag.opTagFifoRd.toNat +
      ((x.run i t).engine.out.outValidReg && (i t).mAxisTlpTready).toNat) := by
  have hdel : (x.run i (t + 1)).delivered.length = (x.run i t).delivered.length +
      ((x.run i t).engine.out.outValidReg && (i t).mAxisTlpTready).toNat := by
    simp only [RdSystem.run, RdSystem.step, List.length_append]
    cases (x.run i t).engine.out.outValidReg && (i t).mAxisTlpTready <;> rfl
  simp only [progressSum, hdel]
  simp only [RdProgress.run, RdProgress.next]
  omega

lemma stalled_of_sum_eq {t : ℕ} (h : progressSum g x i (t + 1) = progressSum g x i t) :
    Stalled (x.run i t) (i t) := by
  rw [progressSum_succ] at h
  have hzero : ∀ b : Bool, b.toNat = 0 → b = false := fun b hb => by
    cases b with
    | false => rfl
    | true => cases hb
  exact ⟨hzero _ (by omega), hzero _ (by omega), hzero _ (by omega), hzero _ (by omega),
    hzero _ (by omega)⟩

lemma exists_stalled (h : ∀ t, RdInv mem address length (x.run i t) (g.run x i t)) :
    ∃ t₀, ∀ t, t₀ ≤ t → Stalled (x.run i t) (i t) := by
  have hmono : Monotone (progressSum g x i) :=
    monotone_nat_of_le_succ fun t => by rw [progressSum_succ]; omega
  have hbound : ∀ t, progressSum g x i t ≤
      reqCount c length + (length + 63) / 64 + (length + 63) / 64 + reqCount c length +
        (length + 63) / 64 := by
    intro t
    have h₁ := (h t).req.requested_le
    have h₂ := (h t).recv.total
    have h₃ := (h t).emitted_le
    have h₄ := (h t).popped_le
    have h₅ := (h t).delivered_le
    unfold progressSum
    omega
  obtain ⟨t₀, ht₀⟩ := Progress.eventually_const hmono hbound
  refine ⟨t₀, fun t ht => stalled_of_sum_eq (g := g) ?_⟩
  rw [ht₀ (t + 1) (by omega), ht₀ t ht]

/-! ### A stalled engine has delivered everything -/

/-- From `t₀` on the run is legal, keeps the invariant and moves no counter. -/
structure Stuck (mem : HostMem) (address length : ℕ) (x : RdSystem c) (g : RdProgress)
    (i : ℕ → RdInput c) (t₀ : ℕ) : Prop where
  inv : ∀ t, RdInv mem address length (x.run i t) (g.run x i t)
  legal : ∀ t, (x.run i t).Legal mem (i t)
  fair : x.Fair i
  stalled : ∀ t, t₀ ≤ t → Stalled (x.run i t) (i t)

namespace Stuck

variable {t₀ t : ℕ}

lemma popped_eq (h : Stuck mem address length x g i t₀) (ht : t₀ ≤ t) :
    (g.run x i (t + 1)).popped = (g.run x i t).popped := by
  simp [RdProgress.run, RdProgress.next, (h.stalled t ht).rd]

lemma requested_eq (h : Stuck mem address length x g i t₀) (ht : t₀ ≤ t) :
    (g.run x i (t + 1)).requested = (g.run x i t).requested := by
  simp [RdProgress.run, RdProgress.next, (h.stalled t ht).accept]

lemma outValid (h : Stuck mem address length x g i t₀) (ht : t₀ ≤ t) :
    (x.run i t).engine.out.outValidReg = false := by
  by_contra hv
  rw [Bool.not_eq_false] at hv
  have hstay : ∀ d, (x.run i (t + d)).engine.out.outValidReg = true := by
    intro d
    induction d with
    | zero => exact hv
    | succ d ih =>
      have hd := (h.stalled (t + d) (by omega)).deliver
      rw [ih, Bool.true_and] at hd
      rw [← Nat.add_assoc]
      simp [RdSystem.run, RdSystem.step, rdStep, OutFifo.step, ih, hd]
  obtain ⟨u, hu, hready⟩ := h.fair.consumed t
  obtain ⟨d, rfl⟩ := Nat.exists_eq_add_of_le hu
  have hd := (h.stalled (t + d) (by omega)).deliver
  rw [hstay d, hready] at hd
  cases hd

/-- The output FIFO is empty: its oldest beat would move to the output register. -/
lemma queue_eq_nil (h : Stuck mem address length x g i t₀) (ht : t₀ ≤ t)
    {q : List (AxisBeat c.busBytes)}
    (hq : OutQueue mem address length (x.run i t) (g.run x i t) q) : q = [] := by
  have hv := h.outValid ht
  have hv' := h.outValid (t := t + 1) (by omega)
  simp only [RdSystem.run, RdSystem.step, rdStep, OutFifo.step, OutFifo.load_eq hq.stores, hv] at hv'
  simpa using hv'

lemma halfFull (h : Stuck mem address length x g i t₀) (ht : t₀ + 1 ≤ t) :
    (x.run i t).engine.out.outFifoHalfFullReg = false := by
  obtain ⟨t, rfl⟩ := Nat.exists_eq_add_of_le' ht
  have ht' : t₀ ≤ t + t₀ := by omega
  obtain ⟨q, hq⟩ := (h.inv (t + t₀)).out.queue
  have hnil := h.queue_eq_nil ht' hq
  subst hnil
  have hhalf := OutFifo.step_halfFull hq.stores (x.run i (t + t₀)).engine.emit
    ((x.run i (t + t₀)).engine.newBeat (i (t + t₀))) (i (t + t₀)).mAxisTlpTready
  rw [← Nat.add_assoc]
  exact hhalf.trans (by simp [outputFifoAddrWidthRd])

/-- The data FIFO at the read pointer is empty: its oldest word would be read. -/
lemma words_eq_nil (h : Stuck mem address length x g i t₀) (ht : t₀ + 1 ≤ t) :
    ((x.run i t).engine.cpldDataFifo ((g.run x i t).popped % 2 ^ c.pcieTagWidth)).words = [] := by
  by_contra hne
  have hinv := h.inv t
  have hem := (hinv.emitting_of_words (fun hnil => hne (List.append_eq_nil_iff.mp hnil).1)).2
  have hnoemit := (h.stalled t (by omega)).emit
  have hempty : ((x.run i t).engine.cpldDataFifo
      ((g.run x i t).popped % 2 ^ c.pcieTagWidth)).words.isEmpty = false := by
    simpa using hne
  have hen : (x.run i t).engine.tr.cpldDataFifoRdEnReg
      ((g.run x i t).popped % 2 ^ c.pcieTagWidth) = false := by
    rw [hinv.emit_eq, hempty] at hnoemit
    simpa using hnoemit
  have hen' : (x.run i (t + 1)).engine.tr.cpldDataFifoRdEnReg
      ((g.run x i t).popped % 2 ^ c.pcieTagWidth) = true := by
    simp [RdSystem.run, RdSystem.step, rdStep, trStep, rdEnNext, hem.trState, hinv.tag.rdptr,
      h.halfFull ht, hempty]
  have hwords' : ((x.run i (t + 1)).engine.cpldDataFifo
      ((g.run x i t).popped % 2 ^ c.pcieTagWidth)).words.isEmpty = false := by
    simp [RdSystem.run, RdSystem.step, rdStep, cpldFifoStep, BoundedQueue.clock, hen, hne]
  have hemit' := (h.stalled (t + 1) (by omega)).emit
  rw [(h.inv (t + 1)).emit_eq, h.popped_eq (by omega), hen', hwords'] at hemit'
  cases hemit'

/-- No word waits on the write port either: it would be in the FIFO one cycle later. -/
lemma arrivedWords_eq_nil (h : Stuck mem address length x g i t₀) (ht : t₀ + 1 ≤ t) :
    (x.run i t).engine.arrivedWords ((g.run x i t).popped % 2 ^ c.pcieTagWidth) = [] := by
  have hnil := h.words_eq_nil ht
  have hnil' := h.words_eq_nil (t := t + 1) (by omega)
  rw [h.popped_eq (by omega)] at hnil'
  simp only [RdSystem.run, RdSystem.step, rdStep, cpldFifoStep] at hnil'
  rw [BoundedQueue.clock_words] at hnil'
  · rw [RdState.arrivedWords, hnil, (List.append_eq_nil_iff.mp hnil').2, List.nil_append]
  · rw [hnil]
    split_ifs <;> simp

lemma not_requesting (h : Stuck mem address length x g i t₀) (ht : t₀ ≤ t)
    (hpop : (g.run x i t).popped = (g.run x i t).requested) :
    (x.run i t).engine.req.reqStateReg = .idle := by
  by_contra hs
  have hnv : ∀ u, t₀ ≤ u → (x.run i u).engine.req.txRdReqTlpValidReg = false := by
    intro u hu
    rw [← accept_eq_valid (h.legal u).ready]
    exact (h.stalled u hu).accept
  have hs' : (x.run i t).engine.req.reqStateReg = .start := by
    cases hst : (x.run i t).engine.req.reqStateReg with
    | start => rfl
    | idle => exact absurd hst hs
  have ha := (h.stalled t ht).accept
  have hnw : ∀ u, t₀ ≤ u → (x.run i u).engine.tag.opTagFifoWe = false := by
    intro u hu
    by_contra hw
    rw [Bool.not_eq_false] at hw
    have hst := (h.inv u).req.state_start (.inr hw)
    have hnext := hnv (u + 1) (by omega)
    simp [RdSystem.run, RdSystem.step, rdStep, hw, reqNext_allocate hst (h.stalled u hu).accept] at hnext
  have hfifo := (h.inv t).tag.fifo
  rw [RdState.allocated, hnv t ht, hpop] at hfifo
  have hwe := hnw (t + 1) (by omega)
  have hM := tagCount_pos c
  simp [RdSystem.run, RdSystem.step, rdStep, tagStep, hnw t ht, reqNext_wait hs' ha, hfifo] at hwe

lemma owed_eq (h : Stuck mem address length x g i t₀) (ht : t₀ ≤ t) :
    (x.run i (t + 1)).owed = (x.run i t).owed := by
  have hst := h.stalled t ht
  funext tag
  simp [RdSystem.run, RdSystem.step, RdSystem.owedNext, hst.accept, hst.cplAccept]

lemma owed_eq_nil (h : Stuck mem address length x g i t₀) (ht : t₀ ≤ t)
    (hreq : 0 < (g.run x i t).requested) (tag : ℕ) : (x.run i t).owed tag = [] := by
  by_contra hne
  have hconst : ∀ d, (x.run i (t + d)).owed = (x.run i t).owed ∧
      0 < (g.run x i (t + d)).requested := by
    intro d
    induction d with
    | zero => exact ⟨rfl, hreq⟩
    | succ d ih =>
      rw [← Nat.add_assoc, h.owed_eq (by omega), h.requested_eq (by omega)]
      exact ih
  have hrecv : ∀ d, (x.run i (t + d)).engine.recv.recvStateReg = .start := by
    intro d
    have hinv := h.inv (t + d)
    cases hr : (x.run i (t + d)).engine.recv.recvStateReg with
    | start => rfl
    | idle =>
      have htotal := hinv.recv.total
      have hzero : owedTotal c (x.run i (t + d)).owed = 0 := by
        cases hs : (x.run i (t + d)).engine.req.descTxRdReqStartReg with
        | true =>
          have := (hinv.recv.first hs).2.2.2
          have := (hconst d).2
          omega
        | false =>
          have := hinv.recv.idle hr hs
          omega
      have hnil := hinv.data.owed_eq_nil hzero tag
      rw [(hconst d).1] at hnil
      exact absurd hnil hne
  have hne' : (x.run i (t + 1)).owed tag ≠ [] := by
    rw [(hconst 1).1]
    exact hne
  obtain ⟨u, hu, hval⟩ := h.fair.answered (t + 1) tag hne'
  obtain ⟨d, rfl⟩ := Nat.exists_eq_add_of_le hu
  have hready : (x.run i (t + 1 + d)).engine.recv.rxCplTlpReadyReg = true := by
    have hprev := hrecv d
    rw [Nat.add_right_comm t 1 d]
    simp [RdSystem.run, RdSystem.step, rdStep, recvStep, hprev]
  have hst := (h.stalled (t + 1 + d) (by omega)).cplAccept
  rw [RdState.cplAccept, hval, hready] at hst
  cases hst

/-- A stalled engine has handed all beats to the stream. -/
theorem delivered (h : Stuck mem address length x g i t₀) :
    (length + 63) / 64 ≤ (x.run i (t₀ + 1)).delivered.length := by
  have hinv := h.inv (t₀ + 1)
  have hst := h.stalled (t₀ + 1) (by omega)
  obtain ⟨q, hq⟩ := hinv.out.queue
  have hnil := h.queue_eq_nil (by omega) hq
  have hcount := hq.count
  rw [hnil, OutFifo.pending, h.outValid (by omega)] at hcount
  simp only [Bool.false_eq_true, if_false, List.append_nil] at hcount
  rw [hcount]
  by_contra hlt
  have hpop : (g.run x i (t₀ + 1)).popped < reqCount c length := by
    by_contra hge
    have := hinv.tag.finished hst.rd (le_antisymm hinv.popped_le (by omega))
    omega
  have hem := hinv.emitting hst.rd hpop
  have hslot := hinv.currentSlot
  have hwords := hslot.words.count
  rw [h.arrivedWords_eq_nil le_rfl, List.length_nil] at hwords
  by_cases hreq : (g.run x i (t₀ + 1)).popped < (g.run x i (t₀ + 1)).requested
  · have howed := (hslot.owed hreq).2
    rw [h.owed_eq_nil (by omega) (by omega)] at howed
    have hlen := congrArg List.length howed
    rw [List.length_nil, List.length_map, List.length_range'] at hlen
    have hge := hem.le_emitted
    have hend := hem.emitted_lt
    omega
  · have hpr := le_antisymm hinv.tag.popped_le (Nat.not_lt.mp hreq)
    have hidle := h.not_requesting (by omega) hpr
    have := (hinv.req.idle hidle).1
    omega

end Stuck

/-- Under a fair host and a fair consumer a running descriptor is delivered. -/
theorem RdInv.delivers (hc : c.Wide512) (haddr : address % 4 = 0) (hpos : 0 < length)
    (hlen : length < 2 ^ 32) (hlow : ∀ t, (i t).descTxRdReqStart = false)
    (hlegal : ∀ t, (x.run i t).Legal mem (i t)) (hfair : x.Fair i)
    (h : RdInv mem address length x g) :
    ∃ t, (length + 63) / 64 ≤ (x.run i t).delivered.length := by
  have hinv := h.run hc haddr hpos hlen hlow hlegal
  obtain ⟨t₀, hst⟩ := exists_stalled hinv
  exact ⟨t₀ + 1, Stuck.delivered ⟨hinv, hlegal, hfair, hst⟩⟩

lemma delivered_mono (x : RdSystem c) (i : ℕ → RdInput c) {t u : ℕ} (h : t ≤ u) :
    (x.run i t).delivered.length ≤ (x.run i u).delivered.length := by
  induction h with
  | refl => exact le_rfl
  | step _ ih =>
    refine ih.trans ?_
    simp only [RdSystem.run, RdSystem.step, List.length_append]
    exact Nat.le_add_right _ _

end Runs

/-! ### From the start pulse on -/

section Started

variable {s : RdState c} {i : ℕ → RdInput c}

/-- The counters of a descriptor `t + 1` cycles after its start pulse. -/
def startedProgress (s : RdState c) (i : ℕ → RdInput c) : ℕ → RdProgress :=
  RdProgress.start.run ((RdSystem.fresh s).step (i 0)) fun u => i (u + 1)

lemma startedProgress_succ (t : ℕ) : startedProgress s i (t + 1) =
    (startedProgress s i t).next ((RdSystem.fresh s).run i (t + 1)) (i (t + 1)) := by
  rw [RdSystem.run_succ]
  rfl

theorem started_inv (hc : c.Wide512) (haddr : address % 4 = 0) (haddr64 : address < 2 ^ 64)
    (hpos : 1 ≤ length) (hlen : length < 2 ^ 32) (hquiet : s.Quiet)
    (hstart : StartsOnce i address length)
    (hlegal : ∀ t, ((RdSystem.fresh s).run i t).Legal mem (i t)) (t : ℕ) :
    RdInv mem address length ((RdSystem.fresh s).run i (t + 1)) (startedProgress s i t) := by
  obtain ⟨hpulse, ha, hl, hlow⟩ := hstart
  subst ha hl
  rw [RdSystem.run_succ]
  apply (RdInv.init mem hc haddr64 hpos hlen hquiet hpulse).run hc haddr hpos hlen
  · exact fun t => hlow (t + 1) (by omega)
  · intro t
    rw [← RdSystem.run_succ]
    exact hlegal (t + 1)

theorem started_delivers (hc : c.Wide512) (haddr : address % 4 = 0) (haddr64 : address < 2 ^ 64)
    (hpos : 1 ≤ length) (hlen : length < 2 ^ 32) (hquiet : s.Quiet)
    (hstart : StartsOnce i address length)
    (hlegal : ∀ t, ((RdSystem.fresh s).run i t).Legal mem (i t)) (hfair : (RdSystem.fresh s).Fair i) :
    ∃ t₁, ∀ t, t₁ ≤ t →
      (length + 63) / 64 ≤ ((RdSystem.fresh s).run i (t + 1)).delivered.length := by
  have hinit := started_inv hc haddr haddr64 hpos hlen hquiet hstart hlegal 0
  have hfair' : ((RdSystem.fresh s).step (i 0)).Fair (fun u => i (u + 1)) := by
    refine ⟨fun t tag hne => ?_, fun t => ?_⟩
    · rw [← RdSystem.run_succ] at hne
      obtain ⟨u, hu, hv⟩ := hfair.answered (t + 1) tag hne
      exact ⟨u - 1, by omega, by rwa [Nat.sub_add_cancel (by omega)]⟩
    · obtain ⟨u, hu, hv⟩ := hfair.consumed (t + 1)
      exact ⟨u - 1, by omega, by rwa [Nat.sub_add_cancel (by omega)]⟩
  obtain ⟨t₁, ht₁⟩ := hinit.delivers hc haddr hpos hlen (i := fun u => i (u + 1))
    (fun t => hstart.low (t + 1) (by omega))
    (fun t => by
      have := hlegal (t + 1)
      rw [RdSystem.run_succ] at this
      exact this) hfair'
  refine ⟨t₁, fun t ht => ht₁.trans ?_⟩
  rw [RdSystem.run_succ]
  exact delivered_mono _ _ ht

end Started

/-- From a quiet engine, with a legal host, the beats accepted on the stream are at any time the
first beats of the descriptor; with a fair host and consumer all of them are accepted, and
from then on the FSMs are idle, no tag is allocated and nothing is owed. -/
theorem h2c_reassembly (hc : c.Wide512) (mem : HostMem) (address length : ℕ) (s : RdState c)
    (i : ℕ → RdInput c) (haddr : address % 64 = 0) (haddr64 : address < 2 ^ 64) (hpos : 1 ≤ length)
    (hlen : length < 2 ^ 32) (hquiet : s.Quiet) (hstart : StartsOnce i address length)
    (hlegal : ∀ t, ((RdSystem.fresh s).run i t).Legal mem (i t)) :
    (∀ t, StreamOk mem address length ((RdSystem.fresh s).run i t).delivered ∧
      ((RdSystem.fresh s).run i t).delivered.length ≤ (length + 63) / 64) ∧
    ((RdSystem.fresh s).Fair i → ∃ t₁, ∀ t, t₁ ≤ t →
      ((RdSystem.fresh s).run i t).delivered.length = (length + 63) / 64 ∧
      ((RdSystem.fresh s).run i t).engine.Quiet ∧
      ∀ tag, ((RdSystem.fresh s).run i t).owed tag = []) := by
  have haddr4 : address % 4 = 0 := by omega
  have hinv := started_inv hc haddr4 haddr64 hpos hlen hquiet hstart hlegal
  constructor
  · intro t
    cases t with
    | zero => exact ⟨nofun, Nat.zero_le _⟩
    | succ t => exact ⟨(hinv t).delivered_ok, (hinv t).delivered_le⟩
  · intro hfair
    obtain ⟨t₁, ht₁⟩ := started_delivers hc haddr4 haddr64 hpos hlen hquiet hstart hlegal hfair
    refine ⟨t₁ + 1, fun t ht => ?_⟩
    obtain ⟨d, rfl⟩ := Nat.exists_eq_add_of_le' ht
    have hall := ht₁ (d + t₁) (by omega)
    rw [← Nat.add_assoc]
    exact ⟨le_antisymm (hinv _).delivered_le hall, (hinv _).quiet_of_delivered hc hall⟩

/-! ### A host that answers at once -/

section Serving

/-- A completion header with this tag. -/
def cplHdrOfTag (tag : ℕ) : BitVec 128 := BitVec.ofNat 128 (tag % 256 * 2 ^ 40)

lemma rxCplTlpHdrTag_cplHdrOfTag {tag : ℕ} (h : tag < 256) :
    rxCplTlpHdrTag (cplHdrOfTag tag) = tag := by
  have hall : ∀ k : Fin 256, rxCplTlpHdrTag (cplHdrOfTag k.val) = k.val := by decide +kernel
  exact hall ⟨tag, h⟩

/-- The lowest tag with a beat owed. -/
def RdSystem.owingTag (x : RdSystem c) : Option ℕ :=
  (List.range 256).find? fun tag => !(x.owed tag).isEmpty

/-- The inputs of a cycle in which the host answers the lowest tag and every port is ready. -/
def RdSystem.serve (mem : HostMem) (address length : ℕ) (t : ℕ) (x : RdSystem c) : RdInput c where
  descTxRdReqStart := t == 0
  descTxRdReqLength := length
  descTxRdReqAddress := address
  txRdReqTlpReady := true
  rxCplTlpValid := x.owingTag.isSome
  rxCplTlpHdr := cplHdrOfTag (x.owingTag.getD 0)
  rxCplTlpData := fun j => mem ((((x.owed (x.owingTag.getD 0)).head?.map CplBeat.address).getD 0 + j) %
    2 ^ 64)
  mAxisTlpTready := true

def RdSystem.served (mem : HostMem) (address length : ℕ) (x : RdSystem c) : ℕ → RdSystem c
  | 0 => x
  | t + 1 => (x.served mem address length t).step
      ((x.served mem address length t).serve mem address length t)

def RdSystem.servedInput (mem : HostMem) (address length : ℕ) (x : RdSystem c) (t : ℕ) : RdInput c :=
  (x.served mem address length t).serve mem address length t

lemma RdSystem.run_servedInput (mem : HostMem) (address length : ℕ) (x : RdSystem c) (t : ℕ) :
    x.run (x.servedInput mem address length) t = x.served mem address length t := by
  induction t with
  | zero => rfl
  | succ t ih => rw [RdSystem.run, ih, RdSystem.served, RdSystem.servedInput]

lemma RdSystem.serve_legal (mem : HostMem) (address length t : ℕ) (x : RdSystem c) :
    x.Legal mem (x.serve mem address length t) := by
  refine ⟨fun _ => rfl, fun hv => ?_⟩
  obtain ⟨tag, htag⟩ := Option.isSome_iff_exists.mp (show x.owingTag.isSome = true from hv)
  have hmem := List.find?_some htag
  have hlt := List.mem_range.mp (List.mem_of_find?_eq_some htag)
  cases how : x.owed tag with
  | nil => simp [how] at hmem
  | cons b rest =>
    refine ⟨b, ?_, fun j _ => ?_⟩
    · simp [RdSystem.serve, htag, rxCplTlpHdrTag_cplHdrOfTag hlt, how]
    · simp [RdSystem.serve, htag, how]

/-- Such a host is legal and fair to every descriptor. -/
theorem RdSystem.served_fair (hc : c.Wide512) (mem : HostMem) {s : RdState c} (hquiet : s.Quiet)
    (haddr : address % 4 = 0) (haddr64 : address < 2 ^ 64) (hpos : 0 < length)
    (hlen : length < 2 ^ 32) :
    (RdSystem.fresh s).Fair ((RdSystem.fresh s).servedInput mem address length) := by
  refine ⟨fun t tag hne => ⟨t, le_rfl, ?_⟩, fun t => ⟨t, le_rfl, rfl⟩⟩
  have hlt : tag < 256 := by
    cases t with
    | zero => exact absurd rfl hne
    | succ t =>
      have hinv := (RdInv.init (i := (RdSystem.fresh s).servedInput mem address length 0) mem hc
        haddr64 hpos hlen hquiet rfl).run hc haddr hpos hlen
        (i := fun u => (RdSystem.fresh s).servedInput mem address length (u + 1))
        (fun u => rfl) (fun u => by
          rw [← RdSystem.run_succ, RdSystem.run_servedInput]
          exact RdSystem.serve_legal mem address length (u + 1) _) t
      by_contra hge
      have hT : 2 ^ c.pcieTagWidth ≤ 2 ^ 8 := Nat.pow_le_pow_right (by omega) c.pcieTagWidth_le
      rw [RdSystem.run_succ] at hne
      exact hne (hinv.data.owed tag (by omega))
  rw [RdSystem.run_servedInput] at hne
  show (RdSystem.served mem address length (RdSystem.fresh s) t).owingTag.isSome = true
  rw [RdSystem.owingTag, List.find?_isSome]
  exact ⟨tag, List.mem_range.mpr hlt, by simpa using hne⟩

end Serving

/-- A descriptor of 20000 bytes in 40 requests on an engine with 32 tags, out of reset. -/
theorem h2c_reassembly_served :
    let c : RdConfig := ⟨6, 5, 0, 2, by decide, by decide⟩
    let mem : HostMem := fun a => BitVec.ofNat 8 a
    ∃ t₁, ∀ t, t₁ ≤ t →
      ((RdSystem.fresh (rdReset c)).run
        ((RdSystem.fresh (rdReset c)).servedInput mem 4096 20000) t).delivered.length = 313 ∧
      ((RdSystem.fresh (rdReset c)).run
        ((RdSystem.fresh (rdReset c)).servedInput mem 4096 20000) t).engine.Quiet := by
  intro c mem
  have hc : c.Wide512 := ⟨rfl, rfl⟩
  obtain ⟨t₁, ht₁⟩ := (h2c_reassembly hc mem 4096 20000 (rdReset c)
    ((RdSystem.fresh (rdReset c)).servedInput mem 4096 20000) (by decide) (by decide) (by decide)
    (by decide) (rdReset_quiet c) ⟨rfl, rfl, rfl, fun t ht => by
      simp only [RdSystem.servedInput, RdSystem.serve, beq_eq_false_iff_ne]
      omega⟩ (fun t => by
      rw [RdSystem.run_servedInput]
      exact RdSystem.serve_legal mem 4096 20000 t _)).2
    (RdSystem.served_fair hc mem (rdReset_quiet c) (by decide) (by decide) (by decide) (by decide))
  exact ⟨t₁, fun t ht => ⟨(ht₁ t ht).1, (ht₁ t ht).2.1⟩⟩

end FpgaPcie
