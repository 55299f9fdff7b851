import FpgaPcie.Rtl.DmaRdHost

/-!
# The invariant of a running descriptor

Four counters follow a descriptor through the engine: the requests accepted, the completion
beats received, the beats handed to the output FIFO and the tags released. Each FSM keeps its
registers in step with them; request `k` owns tag `k` modulo the tag count from its
allocation to its release, and the data FIFO of that tag holds the beats of request `k` that
have arrived and are not yet emitted.
-/

namespace FpgaPcie

variable {c : RdConfig}

structure RdProgress where
  requested : ℕ
  received : ℕ
  emitted : ℕ
  popped : ℕ
  /-- The first beat of request `k` that has not arrived. -/
  arrived : ℕ → ℕ

namespace RdProgress

def start : RdProgress := ⟨0, 0, 0, 0, fun k => 8 * k⟩

/-- The request that owns `tag` while `g.popped` tags have been released. -/
def Owns (c : RdConfig) (g : RdProgress) (k tag : ℕ) : Prop :=
  g.popped ≤ k ∧ k < g.popped + 2 ^ c.pcieTagWidth ∧ k % 2 ^ c.pcieTagWidth = tag

instance (g : RdProgress) (k tag : ℕ) : Decidable (g.Owns c k tag) :=
  inferInstanceAs (Decidable (_ ∧ _ ∧ _))

def next (g : RdProgress) (x : RdSystem c) (i : RdInput c) : RdProgress where
  requested := g.requested + (x.engine.req.accept i).toNat
  received := g.received + (x.engine.cplAccept i).toNat
  emitted := g.emitted + x.engine.emit.toNat
  popped := g.popped + x.engine.tag.opTagFifoRd.toNat
  arrived := fun k =>
    if x.engine.cplAccept i ∧ g.Owns c k (rxCplTlpHdrTag i.rxCplTlpHdr) then g.arrived k + 1
    else g.arrived k

end RdProgress

/-- The words are the beats from `lo` up to `hi`. -/
structure Carries (mem : HostMem) (address length lo hi : ℕ) (words : List (Bytes c.busBytes)) :
    Prop where
  count : words.length = hi - lo
  data : ∀ j (hj : j < words.length), DataOk mem address length (lo + j) words[j]

namespace Carries

variable {mem : HostMem} {address length lo hi : ℕ} {words : List (Bytes c.busBytes)}

lemma nil (n : ℕ) : Carries mem address length n n ([] : List (Bytes c.busBytes)) :=
  ⟨by simp, nofun⟩

lemma snoc (h : Carries mem address length lo hi words) (hle : lo ≤ hi) {w : Bytes c.busBytes}
    (hw : DataOk mem address length hi w) :
    Carries mem address length lo (hi + 1) (words ++ [w]) := by
  have hn := h.count
  refine ⟨by rw [List.length_append, List.length_singleton]; omega, fun j hj => ?_⟩
  by_cases hlt : j < words.length
  · rw [List.getElem_append_left hlt]
    exact h.data j hlt
  · rw [List.length_append, List.length_singleton] at hj
    have hje : j = words.length := by omega
    subst hje
    have he : lo + words.length = hi := by omega
    rw [List.getElem_concat_length rfl, he]
    exact hw

lemma tail (h : Carries mem address length lo hi words) :
    Carries mem address length (lo + 1) hi words.tail := by
  have hn := h.count
  refine ⟨by rw [List.length_tail]; omega, fun j hj => ?_⟩
  rw [List.length_tail] at hj
  have hd := h.data (j + 1) (by omega)
  rw [List.getElem_tail, Nat.add_right_comm, Nat.add_assoc]
  exact hd

lemma head (h : Carries mem address length lo hi words) (hne : words ≠ []) :
    DataOk mem address length lo (words.head hne) := by
  have hd := h.data 0 (List.length_pos_iff.mpr hne)
  rw [List.head_eq_getElem]
  exact hd

lemma eq_nil (h : Carries mem address length lo hi words) (hle : hi ≤ lo) : words = [] := by
  have hn := h.count
  exact List.length_eq_zero_iff.mp (by omega)

end Carries

namespace RdState

/-- The tags pushed into `op_tag_fifo`, when `requested` requests have been accepted. -/
def allocated (s : RdState c) (requested : ℕ) : ℕ := requested + s.req.txRdReqTlpValidReg.toNat

/-- The words of a tag that have arrived: its data FIFO and the word on its write port. -/
def arrivedWords (s : RdState c) (tag : ℕ) : List (Bytes c.busBytes) :=
  (s.cpldDataFifo tag).words ++
    if s.recv.cpldDataFifoWrEnReg tag then [s.recv.cpldDataFifoDinReg tag] else []

end RdState

/-- The number of beats owed over all tags. -/
def owedTotal (c : RdConfig) (owed : ℕ → List CplBeat) : ℕ :=
  ∑ tag ∈ Finset.range (2 ^ c.pcieTagWidth), (owed tag).length

section Invariant

variable (mem : HostMem) (address length : ℕ)

structure ReqInv (s : RdState c) (requested : ℕ) : Prop where
  lengthReg : s.req.descTxRdReqLengthReg = length
  idle : s.req.reqStateReg = .idle → requested = reqCount c length ∧
    s.req.txRdReqTlpValidReg = false ∧ s.tag.opTagFifoWe = false ∧ s.req.descTxRdReqStartReg = false
  start : s.req.reqStateReg = .start → requested < reqCount c length ∧
    s.req.Building c address length requested ∧
    s.tag.opTagFifoWrTag = s.allocated requested % 2 ^ c.pcieTagWidth
  valid : s.req.txRdReqTlpValidReg = true → s.tag.opTagFifoWe = false ∧
    s.req.txRdReqTlpHdrReg.Covers (reqAddress c address requested) (reqBytes c length requested) ∧
    s.req.txRdReqTlpHdrReg.tag = requested % 2 ^ c.pcieTagWidth

structure TagInv (s : RdState c) (g : RdProgress) : Prop where
  popped_le : g.popped ≤ g.requested
  fifo : s.tag.opTagFifo.words.length = s.allocated g.requested - g.popped
  room : s.tag.opTagFifoWe = true → s.allocated g.requested < g.popped + 2 ^ c.pcieTagWidth
  rdptr : s.tag.opTagFifoRdptr = g.popped % 2 ^ c.pcieTagWidth
  table : ∀ k, g.popped ≤ k → k < g.popped + 2 ^ c.pcieTagWidth →
    s.tag.tagTableInfo (k % 2 ^ c.pcieTagWidth) =
      if k < s.allocated g.requested then endBeat length k - 8 * k else 0
  rdEn : ∀ tag, s.tr.cpldDataFifoRdEnReg tag = true →
    tag = g.popped % 2 ^ c.pcieTagWidth ∧ g.popped < g.requested
  release : s.tag.opTagFifoRd = true → g.popped < g.requested ∧
    g.emitted = endBeat length g.popped ∧ s.tr.cycleReg = 0
  current : s.tag.opTagFifoRd = false → g.popped < reqCount c length →
    8 * g.popped ≤ g.emitted ∧ g.emitted < endBeat length g.popped ∧
      s.tr.cycleReg = g.emitted - 8 * g.popped
  finished : s.tag.opTagFifoRd = false → g.popped = reqCount c length →
    g.emitted = (length + 63) / 64

/-- The state of the tag owned by request `k`. -/
structure SlotInv (x : RdSystem c) (g : RdProgress) (k : ℕ) : Prop where
  lo_le : max (8 * k) g.emitted ≤ g.arrived k
  words : Carries mem address length (max (8 * k) g.emitted) (g.arrived k)
    (x.engine.arrivedWords (k % 2 ^ c.pcieTagWidth))
  owed : k < g.requested → g.arrived k ≤ endBeat length k ∧
    x.owed (k % 2 ^ c.pcieTagWidth) =
      (List.range' (g.arrived k) (endBeat length k - g.arrived k)).map (owedBeat address length)
  none : g.requested ≤ k → x.owed (k % 2 ^ c.pcieTagWidth) = []

structure DataInv (x : RdSystem c) (g : RdProgress) : Prop where
  slot : ∀ k, g.popped ≤ k → k < g.popped + 2 ^ c.pcieTagWidth → SlotInv mem address length x g k
  arrived : ∀ k, g.requested ≤ k → g.arrived k = 8 * k
  owed : ∀ tag, 2 ^ c.pcieTagWidth ≤ tag → x.owed tag = []

structure RecvInv (x : RdSystem c) (g : RdProgress) : Prop where
  total : g.received + owedTotal c x.owed = min (8 * g.requested) ((length + 63) / 64)
  first : x.engine.req.descTxRdReqStartReg = true → x.engine.recv.recvStateReg = .idle ∧
    x.engine.req.reqStateReg = .start ∧ x.engine.req.txRdReqTlpValidReg = false ∧ g.requested = 0
  idle : x.engine.recv.recvStateReg = .idle → x.engine.req.descTxRdReqStartReg = false →
    g.received = (length + 63) / 64
  start : x.engine.recv.recvStateReg = .start → x.engine.req.descTxRdReqStartReg = false ∧
    x.engine.recv.cplTrCycleReg = (length + 63) / 64 ∧
    x.engine.recv.cplOpCycleReg = g.received ∧ g.received < (length + 63) / 64

/-- The output FIFO holds `q`: the beats accepted downstream and those still on their way are
the first `g.emitted` beats of the descriptor. -/
structure OutQueue (x : RdSystem c) (g : RdProgress) (q : List (AxisBeat c.busBytes)) : Prop where
  stores : x.engine.out.Stores outputFifoAddrWidthRd q
  length_le : q.length ≤ 34
  not_half : x.engine.out.outFifoHalfFullReg = false → q.length ≤ 32
  rdEn : ∀ tag, x.engine.tr.cpldDataFifoRdEnReg tag = true → q.length ≤ 33
  release : x.engine.tag.opTagFifoRd = true → q ≠ []
  count : (x.delivered ++ x.engine.out.pending q).length = g.emitted
  beats : StreamOk mem address length (x.delivered ++ x.engine.out.pending q)

structure OutInv (x : RdSystem c) (g : RdProgress) : Prop where
  start : x.engine.tr.trStateReg = .start → g.emitted < (length + 63) / 64 ∧
    x.engine.tr.outputCycleReg = (length + 63) / 64 - g.emitted
  idle : x.engine.tr.trStateReg = .idle → g.emitted = (length + 63) / 64
  queue : ∃ q, OutQueue mem address length x g q

structure RdInv (x : RdSystem c) (g : RdProgress) : Prop where
  req : ReqInv address length x.engine g.requested
  tag : TagInv length x.engine g
  data : DataInv mem address length x g
  recv : RecvInv length x g
  out : OutInv mem address length x g

end Invariant

end FpgaPcie
