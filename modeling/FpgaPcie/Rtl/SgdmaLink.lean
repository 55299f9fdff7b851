import FpgaPcie.Rtl.DmaRdTags
import FpgaPcie.Rtl.SgdmaCtrl

/-!
# Two read engines on one link

The list fetch of the C2H side and the read engine of the H2C side share the link through
`sgdma_if_pcie_ctrl`. Each engine hands out tags from its own `op_tag_fifo`, under one requester id.
The MRds sent are kept until all beats of their completions have been accepted.
-/

namespace FpgaPcie

/-- The parameters and static inputs that both engines share, and the number of tags of each. -/
structure LinkConfig where
  offsetWidth : ℕ
  pcieTagWidth : Fin 2 → ℕ
  requesterId : ℕ
  maxReadPayloadSize : ℕ
  pcieTagWidth_le : ∀ p, pcieTagWidth p ≤ 8
  maxReadPayloadSize_lt : maxReadPayloadSize < 8

/-- The engine at this port. -/
abbrev LinkConfig.rd (c : LinkConfig) (p : Fin 2) : RdConfig where
  offsetWidth := c.offsetWidth
  pcieTagWidth := c.pcieTagWidth p
  requesterId := c.requesterId
  maxReadPayloadSize := c.maxReadPayloadSize
  pcieTagWidth_le := c.pcieTagWidth_le p
  maxReadPayloadSize_lt := c.maxReadPayloadSize_lt

/-- The descriptors, the stream consumers, and the far end of the link: the ready of `tx_rd_req` and
the completion beat with the position of the MRd it answers among the outstanding ones. -/
structure LinkInput (c : LinkConfig) where
  descTxRdReqStart : Fin 2 → Bool
  descTxRdReqLength : Fin 2 → ℕ
  descTxRdReqAddress : Fin 2 → ℕ
  mAxisTlpTready : Fin 2 → Bool
  txRdReqTlpReady : Bool
  rxCplTlp : CplTlp (2 ^ c.offsetWidth)
  rxCplTlpValid : Bool
  answers : ℕ

/-- The beats that complete an MRd: at least one. -/
def PortMrd.beats (m : PortMrd) (width : ℕ) : ℕ := max 1 (m.hdr.cplBeats width).length

/-- The MRds accepted on `tx_rd_req`, each with the beats of its completion that are still to come. -/
abbrev Outstanding := List (PortMrd × ℕ)

/-- A beat for the MRd at this position is accepted; the last one removes the MRd. -/
def Outstanding.receive : ℕ → Outstanding → Outstanding
  | _, [] => []
  | 0, (m, left) :: ms => if left ≤ 1 then ms else (m, left - 1) :: ms
  | k + 1, m :: ms => m :: Outstanding.receive k ms

structure Link (c : LinkConfig) where
  engine : (p : Fin 2) → RdState (c.rd p)
  tlpMux : TlpMuxState 2 PortMrd
  outstanding : Outstanding

namespace Link

variable {c : LinkConfig} (x : Link c) (i : LinkInput c)

/-- The engines at the ports of the controller. -/
def ctrlInput : CtrlInput (2 ^ c.offsetWidth) where
  rxRdReqTlpHdr := fun p => (x.engine p).req.txRdReqTlpHdrReg
  rxRdReqTlpSeq := fun _ => 0
  rxRdReqTlpValid := fun p => (x.engine p).req.txRdReqTlpValidReg
  rxRdReqTlpSop := fun p => (x.engine p).req.txRdReqTlpValidReg
  rxRdReqTlpEop := fun p => (x.engine p).req.txRdReqTlpValidReg
  txRdReqTlpReady := i.txRdReqTlpReady
  rxCplTlp := i.rxCplTlp
  rxCplTlpValid := i.rxCplTlpValid
  txCplTlpReady := fun p => (x.engine p).recv.rxCplTlpReadyReg

def engineInput (p : Fin 2) : RdInput (c.rd p) where
  descTxRdReqStart := i.descTxRdReqStart p
  descTxRdReqLength := i.descTxRdReqLength p
  descTxRdReqAddress := i.descTxRdReqAddress p
  txRdReqTlpReady := x.tlpMux.inTlpReady p
  rxCplTlpValid := (x.ctrlInput i).txCplTlpValid p
  rxCplTlpHdr := ((x.ctrlInput i).txCplTlp p).hdr
  rxCplTlpData := ((x.ctrlInput i).txCplTlp p).data
  mAxisTlpTready := i.mAxisTlpTready p

/-- The outstanding MRds behind the completion beat of this cycle. -/
def received : Outstanding :=
  if (x.ctrlInput i).rxCplTlpValid && (x.ctrlInput i).rxCplTlpReady then x.outstanding.receive i.answers
  else x.outstanding

def step : Link c where
  engine := fun p => rdStep (x.engine p) (x.engineInput i p)
  tlpMux := x.tlpMux.step (x.ctrlInput i).muxInput
  outstanding := x.received i ++ if x.tlpMux.out.outValidReg && i.txRdReqTlpReady then
    [(x.tlpMux.out.outReg.tlp, x.tlpMux.out.outReg.tlp.beats (2 ^ c.offsetWidth))] else []

/-- The run out of reset. -/
def run (i : ℕ → LinkInput c) : ℕ → Link c
  | 0 => ⟨fun p => rdReset (c.rd p), muxReset, []⟩
  | t + 1 => (run i t).step (i t)

/-- A completion beat answers an outstanding MRd and has its tag. -/
def Legal : Prop := i.rxCplTlpValid = true → ∃ m ∈ x.outstanding[i.answers]?,
  rxCplTlpHdrTag i.rxCplTlp.hdr = m.1.hdr.tag

/-- No two outstanding MRds have the same requester id and tag. -/
def TagsUnique : Prop := (x.outstanding.map fun m => (m.1.hdr.requesterId, m.1.hdr.tag)).Nodup

/-- The port that issued the MRd that the completion beat answers. -/
def owner : Option (Fin 2) := (x.outstanding[i.answers]?).map fun m => m.1.port

end Link

/-- `op_tag_fifo` counts this tag, or the allocator hands it out in this cycle. -/
def RdState.Holds {c : RdConfig} (s : RdState c) (tag : ℕ) : Prop :=
  s.InUse tag ∨ s.tag.opTagFifoWe = true ∧ tag = s.tag.opTagFifoWrTag

namespace Link

variable {c : LinkConfig} (x : Link c) (i : LinkInput c)

/-- The MRd that an engine builds with the tag that its allocator hands out. -/
def builtMrd (p : Fin 2) : PortMrd :=
  ⟨p, mrdHdr (c.rd p) (x.engine p).req (x.engine p).tag.opTagFifoWrTag, 0⟩

/-- The engines keep apart in this cycle: a start finds no tag of its engine in use, no allocator hands out
a tag that the other engine holds, no engine stores a beat for the other one, and the table entry of an
MRd counts all of its beats. -/
structure KeptApart : Prop where
  start : ∀ p, (x.engine p).req.take (x.engineInput i p) = true → (x.engine p).Drained
  tag : ∀ p q, p ≠ q → (x.engine p).tag.opTagFifoWe = true → ¬(x.engine q).Holds (x.engine p).tag.opTagFifoWrTag
  data : ∀ p tag, (x.engine p).stores (x.engineInput i p) tag = true → x.owner i = some p
  entry : ∀ p, (x.engine p).tag.opTagFifoWe = true →
    (x.builtMrd p).beats (2 ^ c.offsetWidth) ≤ byteCycleNext (c.rd p) (x.engine p).req

/-! ### What is under way -/

/-- The MRd at the port of an engine. -/
def mrd (p : Fin 2) : PortMrd := ⟨p, (x.engine p).req.txRdReqTlpHdrReg, 0⟩

/-- The weight of the MRds that are offered. -/
def offered (f : PortMrd → ℕ → ℕ) : ℕ :=
  ∑ p, if (x.engine p).req.txRdReqTlpValidReg then f (x.mrd p) ((x.mrd p).beats (2 ^ c.offsetWidth)) else 0

/-- The weight of the MRds that are offered, wait in the multiplexer or are outstanding. -/
def weight (f : PortMrd → ℕ → ℕ) : ℕ :=
  (x.outstanding.map fun m => f m.1 m.2).sum +
    x.tlpMux.load (fun b => f b.tlp (b.tlp.beats (2 ^ c.offsetWidth))) + x.offered f

/-- An MRd counts when it has this port and tag. -/
def liveWeight (p : Fin 2) (tag : ℕ) (m : PortMrd) (_left : ℕ) : ℕ :=
  if m.port = p ∧ m.hdr.tag = tag then 1 else 0

/-- Its beats count when it has this port and tag. -/
def dueWeight (p : Fin 2) (tag : ℕ) (m : PortMrd) (left : ℕ) : ℕ :=
  if m.port = p ∧ m.hdr.tag = tag then left else 0

def live (p : Fin 2) (tag : ℕ) : ℕ := x.weight (liveWeight p tag)

def due (p : Fin 2) (tag : ℕ) : ℕ := x.weight (dueWeight p tag)

end Link

namespace Outstanding

variable {ms : Outstanding} {m : PortMrd} {k left : ℕ}

/-- The MRd that is answered goes down by one beat, and the others stay. -/
lemma receive_sum (f : PortMrd → ℕ → ℕ) (hm : ms[k]? = some (m, left)) :
    ((receive k ms).map fun e => f e.1 e.2).sum + f m left =
      (ms.map fun e => f e.1 e.2).sum + if left ≤ 1 then 0 else f m (left - 1) := by
  induction ms generalizing k with
  | nil => cases hm
  | cons e es ih =>
    cases k with
    | zero =>
      rw [List.getElem?_cons_zero, Option.some.injEq] at hm
      subst hm
      rw [receive]
      split
      · simp [Nat.add_comm]
      · simp only [List.map_cons, List.sum_cons]
        omega
    | succ k =>
      have htail := ih (List.getElem?_cons_succ ▸ hm)
      simp only [receive, List.map_cons, List.sum_cons]
      omega

lemma receive_pos (h : ∀ e ∈ ms, 0 < e.2) : ∀ e ∈ receive k ms, 0 < e.2 := by
  induction ms generalizing k with
  | nil => simp [receive]
  | cons e es ih =>
    have hes : ∀ e ∈ es, 0 < e.2 := fun e he => h e (List.mem_cons_of_mem _ he)
    cases k with
    | zero =>
      obtain ⟨m, left⟩ := e
      rw [receive]
      split
      · exact hes
      · intro e he
        rcases List.mem_cons.mp he with rfl | he
        · dsimp only
          omega
        · exact hes e he
    | succ k =>
      intro e' he
      rcases List.mem_cons.mp he with rfl | he
      · exact h _ (List.mem_cons_self ..)
      · exact ih hes e' he

end Outstanding

lemma PortMrd.beats_pos (m : PortMrd) (width : ℕ) : 0 < m.beats width :=
  lt_of_lt_of_le Nat.one_pos (le_max_left _ _)

namespace Link

section Weight

variable {c : LinkConfig} {x : Link c} {i : LinkInput c} {p : Fin 2} {tag : ℕ}

/-- What is new under way has been built in this cycle. -/
lemma weight_step (f : PortMrd → ℕ → ℕ) (h : x.tlpMux.out.WellFormed) :
    (x.step i).weight f + (x.outstanding.map fun m => f m.1 m.2).sum ≤
      x.weight f + ((x.received i).map fun m => f m.1 m.2).sum + (x.step i).offered f := by
  have hload := TlpMuxState.load_step (s := x.tlpMux) (i := (x.ctrlInput i).muxInput)
    (fun b => f b.tlp (b.tlp.beats (2 ^ c.offsetWidth))) h
  have htaken : (∑ p, if (x.ctrlInput i).muxInput.inTlpValid p && x.tlpMux.inTlpReady p then
      f ((x.ctrlInput i).muxInput.inTlp p).tlp
        (((x.ctrlInput i).muxInput.inTlp p).tlp.beats (2 ^ c.offsetWidth)) else 0) ≤ x.offered f := by
    refine Finset.sum_le_sum fun p _ => ?_
    change (if (x.engine p).req.txRdReqTlpValidReg && x.tlpMux.inTlpReady p then
      f (x.mrd p) ((x.mrd p).beats (2 ^ c.offsetWidth)) else 0) ≤ _
    cases x.tlpMux.inTlpReady p with
    | true => rw [Bool.and_true]
    | false => simp
  have hsent : ((x.step i).outstanding.map fun m => f m.1 m.2).sum =
      ((x.received i).map fun m => f m.1 m.2).sum +
        if x.tlpMux.out.outValidReg && i.txRdReqTlpReady then
          f x.tlpMux.out.outReg.tlp (x.tlpMux.out.outReg.tlp.beats (2 ^ c.offsetWidth)) else 0 := by
    rw [step, List.map_append, List.sum_append]
    congr 1
    split <;> simp
  have hmux : (x.step i).tlpMux = x.tlpMux.step (x.ctrlInput i).muxInput := rfl
  have hready : (x.ctrlInput i).muxInput.outTlpReady = i.txRdReqTlpReady := rfl
  rw [hready] at hload
  unfold weight
  rw [hsent, hmux]
  omega

/-- An MRd that is offered behind this cycle has the tag of a pulse. -/
lemma offered_next {f : PortMrd → ℕ → ℕ} {n : ℕ} (p : Fin 2) (tag : ℕ)
    (hf : ∀ m left, ¬(m.port = p ∧ m.hdr.tag = tag) → f m left = 0)
    (hn : (x.engine p).tag.opTagFifoWe = true → f (x.builtMrd p) ((x.builtMrd p).beats (2 ^ c.offsetWidth)) ≤ n) :
    (x.step i).offered f ≤
      if (x.engine p).tag.opTagFifoWe = true ∧ tag = (x.engine p).tag.opTagFifoWrTag then n else 0 := by
  rw [offered, Fintype.sum_eq_single p fun q hq => by rw [hf _ _ fun hand => hq hand.1, ite_self]]
  cases hv : ((x.step i).engine p).req.txRdReqTlpValidReg with
  | false => exact Nat.zero_le _
  | true =>
    obtain ⟨hw, hhdr, -⟩ := valid_next (i := x.engineInput i p) hv
    have hmrd : (x.step i).mrd p = x.builtMrd p := by
      rw [mrd, builtMrd, ← hhdr]
      rfl
    rw [if_pos rfl, hmrd]
    by_cases htag : tag = (x.engine p).tag.opTagFifoWrTag
    · rw [if_pos ⟨hw, htag⟩]
      exact hn hw
    · rw [if_neg fun hand => htag hand.2, hf _ _ fun hand => htag hand.2.symm]

lemma live_le_due (h : ∀ m ∈ x.outstanding, 0 < m.2) : x.live p tag ≤ x.due p tag := by
  have hpos : ∀ m left, 0 < left → liveWeight p tag m left ≤ dueWeight p tag m left := by
    intro m left hleft
    unfold liveWeight dueWeight
    split
    · exact hleft
    · exact le_rfl
  refine Nat.add_le_add (Nat.add_le_add (List.sum_le_sum fun m hm => hpos _ _ (h m hm))
    (TlpMuxState.load_mono fun b => hpos _ _ (PortMrd.beats_pos _ _))) (Finset.sum_le_sum fun q _ => ?_)
  split
  · exact hpos _ _ (PortMrd.beats_pos _ _)
  · exact le_rfl

lemma weight_outstanding {f : PortMrd → ℕ → ℕ} {m : PortMrd × ℕ} (hm : m ∈ x.outstanding) :
    f m.1 m.2 ≤ x.weight f := by
  have hle : f m.1 m.2 ≤ (x.outstanding.map fun m => f m.1 m.2).sum :=
    List.single_le_sum (fun _ _ => Nat.zero_le _) _ (List.mem_map_of_mem hm)
  exact hle.trans (Nat.le_add_right_of_le (Nat.le_add_right _ _))

/-- Completion beats only take away. -/
lemma received_le {f : PortMrd → ℕ → ℕ} (hf : ∀ m left, f m (left - 1) ≤ f m left) (hlegal : x.Legal i) :
    ((x.received i).map fun m => f m.1 m.2).sum ≤ (x.outstanding.map fun m => f m.1 m.2).sum := by
  unfold received
  split
  · rename_i ha
    obtain ⟨hv, -⟩ := Bool.and_eq_true_iff.mp ha
    obtain ⟨m, hm, -⟩ := hlegal hv
    have hsum := Outstanding.receive_sum f (Option.mem_def.mp hm)
    have hle := hf m.1 m.2
    split at hsum <;> omega
  · exact le_rfl

end Weight

/-! ### The run -/

/-- The engines hold the tags of what is under way, each the tags of its own MRds, and no tag is held
by both. -/
structure TagsInv {c : LinkConfig} (x : Link c) : Prop where
  mux : x.tlpMux.out.WellFormed
  positive : ∀ m ∈ x.outstanding, 0 < m.2
  quiet : ∀ p, (x.engine p).req.reqStateReg = .idle →
    (x.engine p).req.txRdReqTlpValidReg = false ∧ (x.engine p).tag.opTagFifoWe = false
  held : ∀ p, TagsHeld (x.engine p) (x.live p) (x.due p)
  disjoint : ∀ p q, p ≠ q → ∀ tag, (x.engine p).InUse tag → ¬(x.engine q).InUse tag

section Step

variable {c : LinkConfig} {x : Link c} {i : LinkInput c}

lemma liveWeight_pred (p : Fin 2) (tag : ℕ) (m : PortMrd) (left : ℕ) :
    liveWeight p tag m (left - 1) ≤ liveWeight p tag m left := le_rfl

lemma dueWeight_pred (p : Fin 2) (tag : ℕ) (m : PortMrd) (left : ℕ) :
    dueWeight p tag m (left - 1) ≤ dueWeight p tag m left := by
  unfold dueWeight
  split
  · exact Nat.sub_le _ _
  · exact le_rfl

/-- A beat that an engine stores is one of those that are due for its tag. -/
lemma TagsInv.received_due (h : TagsInv x) (hlegal : x.Legal i) (hapart : x.KeptApart i) (p : Fin 2)
    (tag : ℕ) : ((x.received i).map fun m => dueWeight p tag m.1 m.2).sum +
        ((x.engine p).stores (x.engineInput i p) tag).toNat ≤
      (x.outstanding.map fun m => dueWeight p tag m.1 m.2).sum := by
  cases hst : (x.engine p).stores (x.engineInput i p) tag with
  | false => exact received_le (dueWeight_pred p tag) hlegal
  | true =>
    have howner := hapart.data p tag hst
    simp only [RdState.stores, RdState.cplAccept, Bool.and_eq_true, beq_iff_eq] at hst
    obtain ⟨⟨-, hv, hready⟩, htag⟩ := hst
    have hbeat : ((x.ctrlInput i).rxCplTlpValid && (x.ctrlInput i).rxCplTlpReady) = true := by
      rw [Bool.and_eq_true]
      exact ⟨hv, CtrlInput.rxCplTlpReady_of_port _ p hready⟩
    obtain ⟨m, hm, hhdr⟩ := hlegal hv
    rw [Option.mem_def] at hm
    have hport : m.1.port = p := by
      rw [owner, hm] at howner
      exact Option.some.inj howner
    have hpos := h.positive m (List.mem_of_getElem? hm)
    have hdue : m.2 ≤ x.due p m.1.hdr.tag := by
      have hle := weight_outstanding (f := dueWeight p m.1.hdr.tag) (List.mem_of_getElem? hm)
      rwa [dueWeight, if_pos ⟨hport, rfl⟩] at hle
    have hlt : m.1.hdr.tag < 2 ^ c.pcieTagWidth p := by
      by_contra hge
      have hzero := (h.held p).range m.1.hdr.tag (Nat.le_of_not_lt hge)
      omega
    have hsame : m.1.hdr.tag = tag := by
      rw [htag, ← Nat.mod_eq_of_lt hlt, ← hhdr]
      rfl
    have hweight : ∀ left, dueWeight p tag m.1 left = left := fun left => if_pos ⟨hport, hsame⟩
    have hsum := Outstanding.receive_sum (dueWeight p tag) hm
    simp only [hweight] at hsum
    rw [received, if_pos hbeat, Bool.toNat_true]
    split at hsum <;> omega

lemma positive_step (h : ∀ m ∈ x.outstanding, 0 < m.2) : ∀ m ∈ (x.step i).outstanding, 0 < m.2 := by
  intro m hm
  rcases List.mem_append.mp hm with hm | hm
  · unfold received at hm
    split at hm
    · exact Outstanding.receive_pos h m hm
    · exact h m hm
  · split at hm
    · rw [List.mem_singleton.mp hm]
      exact PortMrd.beats_pos _ _
    · cases hm

lemma TagsInv.charges (h : TagsInv x) (hlegal : x.Legal i) (hapart : x.KeptApart i) (p : Fin 2) :
    Charges (x.engine p) (x.engineInput i p) (x.live p) (x.due p) ((x.step i).live p) ((x.step i).due p) where
  live_le tag := live_le_due (positive_step h.positive)
  live tag := by
    have hstep := weight_step (i := i) (liveWeight p tag) h.mux
    have hrecv := received_le (liveWeight_pred p tag) hlegal
    have hnew := offered_next (x := x) (i := i) (f := liveWeight p tag) (n := 1) p tag
      (fun _ _ hno => if_neg hno) fun _ => ite_le_one le_rfl zero_le_one
    rw [live, live]
    omega
  due tag := by
    have hstep := weight_step (i := i) (dueWeight p tag) h.mux
    have hrecv := h.received_due hlegal hapart p tag
    have hnew := offered_next (x := x) (i := i) (f := dueWeight p tag)
      (n := (rdStep (x.engine p) (x.engineInput i p)).req.byteCycleReg) p tag (fun _ _ hno => if_neg hno) (by
        intro hw
        obtain ⟨-, -, hbyte⟩ := valid_next ((h.held p).built (i := x.engineInput i p) hw)
        rw [hbyte]
        refine le_trans ?_ (hapart.entry p hw)
        unfold dueWeight
        split
        · exact le_rfl
        · exact Nat.zero_le _)
    rw [due, due]
    omega
  entry hw := by
    obtain ⟨-, -, hbyte⟩ := valid_next ((h.held p).built (i := x.engineInput i p) hw)
    rw [hbyte]
    exact (PortMrd.beats_pos _ _).trans_le (hapart.entry p hw)

lemma TagsInv.held_step (h : TagsInv x) (hlegal : x.Legal i) (hapart : x.KeptApart i) (p : Fin 2) :
    TagsHeld ((x.step i).engine p) ((x.step i).live p) ((x.step i).due p) := by
  have hch := h.charges hlegal hapart p
  cases ht : (x.engine p).req.take (x.engineInput i p) with
  | false => exact (h.held p).step ht hch
  | true =>
    -- nothing is under way for an engine that takes a start
    have hidle := (take_iff.mp ht).1
    have hw := (h.quiet p hidle).2
    have hdrained := hapart.start p ht
    have hzero : ∀ tag, (x.step i).due p tag + ((x.engine p).stores (x.engineInput i p) tag).toNat = 0 := by
      intro tag
      have hdue := hch.due tag
      rw [(h.held p).due_zero hdrained.fifo tag, hw, if_neg fun hand => Bool.false_ne_true hand.1] at hdue
      exact Nat.le_zero.mp hdue
    have hdue : (x.step i).due p = fun _ => 0 := funext fun tag => (Nat.add_eq_zero_iff.mp (hzero tag)).1
    have hlive : (x.step i).live p = fun _ => 0 := by
      funext tag
      have hle := hch.live_le tag
      rw [hdue] at hle
      exact Nat.le_zero.mp hle
    rw [hdue, hlive]
    exact TagsHeld.launch ht hw (fun tag => Bool.toNat_eq_zero.mp (Nat.add_eq_zero_iff.mp (hzero tag)).2)
      hdrained

/-- A tag in use behind this cycle has been held in it. -/
lemma TagsInv.holds_of_inUse (h : TagsInv x) (hapart : x.KeptApart i) {p : Fin 2} {tag : ℕ}
    (huse : ((x.step i).engine p).InUse tag) : (x.engine p).Holds tag := by
  cases ht : (x.engine p).req.take (x.engineInput i p) with
  | false => exact (((h.held p).inUse_step ht tag).mp huse).imp_left And.left
  | true =>
    have hidle := (take_iff.mp ht).1
    exact absurd huse ((hapart.start p ht).not_inUse (h.quiet p hidle).2 tag)

theorem TagsInv.step (hlegal : x.Legal i) (hapart : x.KeptApart i) (h : TagsInv x) : TagsInv (x.step i) where
  mux := h.mux.step
  positive := positive_step h.positive
  quiet _ hidle := idle_next hidle
  held := h.held_step hlegal hapart
  disjoint p q hne tag hp hq := by
    have hholds := h.holds_of_inUse hapart hq
    rcases h.holds_of_inUse hapart hp with huse | ⟨hw, rfl⟩
    · rcases hholds with hother | ⟨hw, rfl⟩
      · exact h.disjoint p q hne tag huse hother
      · exact hapart.tag q p hne.symm hw (.inl huse)
    · exact hapart.tag p q hne hw hholds

lemma tagsInv_reset (i : ℕ → LinkInput c) : TagsInv (run i 0) where
  mux := SkidBuffer.reset_wellFormed _
  positive := nofun
  quiet _ _ := ⟨rfl, rfl⟩
  held p := by
    have hzero : ∀ f, (run i 0).weight f = 0 := fun f => by
      simp [run, weight, offered, TlpMuxState.load, TlpMuxState.reset, rdReset]
    have hlive : (run i 0).live p = fun _ => 0 := funext fun tag => hzero _
    have hdue : (run i 0).due p = fun _ => 0 := funext fun tag => hzero _
    rw [hlive, hdue]
    exact tagsHeld_reset (c.rd p)
  disjoint _ _ _ _ h := nomatch h.choose_spec.1

lemma TagsInv.live_le (h : TagsInv x) (p : Fin 2) (tag : ℕ) :
    x.live p tag = 0 ∨ x.live p tag ≤ 1 ∧ (x.engine p).InUse tag := by
  by_cases huse : (x.engine p).InUse tag
  · exact .inr ⟨((h.held p).held tag huse).1, huse⟩
  · left
    have hle := (h.held p).live_le tag
    have hdue : x.due p tag = 0 := by
      by_cases htag : tag < 2 ^ c.pcieTagWidth p
      · exact ((h.held p).free tag htag huse).1
      · exact (h.held p).range tag (Nat.le_of_not_lt htag)
    omega

/-- At most one MRd with this tag is under way. -/
lemma TagsInv.live_add_le (h : TagsInv x) (tag : ℕ) : x.live 0 tag + x.live 1 tag ≤ 1 := by
  rcases h.live_le 0 tag with h0 | ⟨h0, huse0⟩
  · rcases h.live_le 1 tag with h1 | ⟨h1, -⟩ <;> omega
  · rcases h.live_le 1 tag with h1 | ⟨-, huse1⟩
    · omega
    · exact absurd huse1 (h.disjoint 0 1 zero_ne_one tag huse0)

end Step

variable {c : LinkConfig}

/-- An MRd that is outstanding counts for one of the ports. -/
lemma count_le_live (ms : Outstanding) (id tag : ℕ) :
    (ms.map fun m => (m.1.hdr.requesterId, m.1.hdr.tag)).count (id, tag) ≤
      (ms.map fun m => liveWeight 0 tag m.1 m.2).sum + (ms.map fun m => liveWeight 1 tag m.1 m.2).sum := by
  induction ms with
  | nil => exact le_rfl
  | cons m ms ih =>
    simp only [List.map_cons, List.sum_cons, List.count_cons]
    have hone : (if ((m.1.hdr.requesterId, m.1.hdr.tag) == (id, tag)) = true then 1 else 0) ≤
        liveWeight 0 tag m.1 m.2 + liveWeight 1 tag m.1 m.2 := by
      split
      · rename_i heq
        have htag : m.1.hdr.tag = tag := (Prod.ext_iff.mp (beq_iff_eq.mp heq)).2
        have hport : m.1.port = 0 ∨ m.1.port = 1 := by
          match m.1.port with
          | 0 => exact .inl rfl
          | 1 => exact .inr rfl
        rcases hport with hport | hport <;> simp [liveWeight, hport, htag]
      · exact Nat.zero_le _
    omega

lemma TagsInv.unique {x : Link c} (h : TagsInv x) : x.TagsUnique := by
  refine List.nodup_iff_count_le_one.mpr fun key => ?_
  obtain ⟨id, tag⟩ := key
  have hout : ∀ p, (x.outstanding.map fun m => liveWeight p tag m.1 m.2).sum ≤ x.live p tag :=
    fun p => Nat.le_add_right_of_le (Nat.le_add_right _ _)
  have hcount := count_le_live x.outstanding id tag
  have h0 := hout 0
  have h1 := hout 1
  have hsum := h.live_add_le tag
  omega

/-- As long as the engines keep apart, no two outstanding MRds have the same requester id and tag. -/
theorem tags_unique_of_apart (i : ℕ → LinkInput c) (hlegal : ∀ t, (run i t).Legal (i t))
    (hapart : ∀ t, (run i t).KeptApart (i t)) (t : ℕ) : (run i t).TagsUnique := by
  have hinv : TagsInv (run i t) := by
    induction t with
    | zero => exact tagsInv_reset i
    | succ t ih => exact ih.step (hlegal t) (hapart t)
  exact hinv.unique

instance (x : Link c) : Decidable x.TagsUnique := inferInstanceAs (Decidable (List.Nodup _))

/-- A descriptor of 64 bytes for the list fetch of the C2H side, and six cycles later one for the H2C side.
No completion has come yet. -/
def bothStarted (t : ℕ) : LinkInput ⟨6, fun _ => 5, 0, 2, fun _ => tagWidth_five, payloadSize_two⟩ where
  descTxRdReqStart := fun p => if p.val = 0 then t == 6 else t == 0
  descTxRdReqLength := fun _ => 64
  descTxRdReqAddress := fun _ => 4096
  mAxisTlpTready := fun _ => true
  txRdReqTlpReady := true
  rxCplTlp := ⟨0, fun _ => 0, true, true⟩
  rxCplTlpValid := false
  answers := 0

/-- Both MRds have tag 0, and both are outstanding. -/
theorem tag_shared : (∀ t, (run bothStarted t).Legal (bothStarted t)) ∧
    ¬∀ t, (run bothStarted t).TagsUnique := by
  refine ⟨fun _ => nofun, fun h => ?_⟩
  have hlast := h 13
  revert hlast
  decide +kernel

/-! ### Engines that keep apart -/

lemma beats_le_dataBeats (m : PortMrd) : m.beats 64 ≤ m.hdr.dataBeats := by
  have hbytes : m.hdr.byteCount ≤ 4 * m.hdr.dwords := by
    simpa [TlpHdr.byteCount] using List.length_filter_le m.hdr.enables (List.range (4 * m.hdr.dwords))
  have hdwords : 0 < m.hdr.dwords := by
    unfold TlpHdr.dwords
    split <;> omega
  rw [PortMrd.beats, TlpHdr.cplBeats, List.length_map, List.length_range, TlpHdr.dataBeats]
  omega

/-- On a 512-bit bus with requests of 512 bytes every table entry counts all beats of its MRd. -/
lemma entry_of_wide512 {p : Fin 2} (hc : (c.rd p).Wide512) (x : Link c) :
    (x.builtMrd p).beats (2 ^ c.offsetWidth) ≤ byteCycleNext (c.rd p) (x.engine p).req := by
  have hwidth : c.offsetWidth = 6 := hc.offsetWidth
  rw [hwidth, ← dataBeats_mrdHdr hc (x.engine p).req (x.engine p).tag.opTagFifoWrTag]
  exact beats_le_dataBeats _

instance {c : RdConfig} (s : RdState c) (tag : ℕ) : Decidable (s.Holds tag) :=
  inferInstanceAs (Decidable ((∃ j, j < _ ∧ _ = _) ∨ _ ∧ _))

/-- An idle engine that is not started again hands out no tag. -/
lemma idle_of_no_start {p : Fin 2} {i : ℕ → LinkInput c} {t₀ t : ℕ}
    (hno : ∀ t, t₀ ≤ t → (i t).descTxRdReqStart p = false) (hidle : ((run i t₀).engine p).req.reqStateReg = .idle)
    (hwe : ((run i t₀).engine p).tag.opTagFifoWe = false) (ht : t₀ ≤ t) :
    ((run i t).engine p).req.reqStateReg = .idle ∧ ((run i t).engine p).tag.opTagFifoWe = false := by
  induction t, ht using Nat.le_induction with
  | base => exact ⟨hidle, hwe⟩
  | succ t ht ih =>
    have htake : ((run i t).engine p).req.take ((run i t).engineInput (i t) p) = false := by
      simp [ReqReg.take, engineInput, hno t ht]
    have hnext : (rdStep ((run i t).engine p) ((run i t).engineInput (i t) p)).req.reqStateReg = .idle := by
      rw [rdStep, reqNext_idle ih.1 htake]
      exact ih.1
    exact ⟨hnext, (idle_next hnext).2⟩

/-- A descriptor of 520 bytes for the list fetch of the C2H side, whose two MRds are answered in the other
order, and one for the H2C side, which is started when the list fetch has received its completions but still
holds its second tag. -/
def oneByOne (t : ℕ) : LinkInput ⟨6, fun _ => 5, 0, 2, fun _ => tagWidth_five, payloadSize_two⟩ where
  descTxRdReqStart := fun p => if p.val = 0 then t == 22 else t == 0
  descTxRdReqLength := fun _ => 520
  descTxRdReqAddress := fun _ => 4096
  mAxisTlpTready := fun _ => true
  txRdReqTlpReady := true
  rxCplTlp := ⟨if t = 9 ∨ t = 39 then 0x10000000000 else 0, fun _ => 0, true, true⟩
  rxCplTlpValid := decide (9 ≤ t ∧ t ≤ 17) || decide (31 ≤ t ∧ t ≤ 39)
  answers := if t = 9 then 1 else 0

lemma oneByOne_valid {t : ℕ} (h : (oneByOne t).rxCplTlpValid = true) : t < 40 := by
  have ht : 9 ≤ t ∧ t ≤ 17 ∨ 31 ≤ t ∧ t ≤ 39 := by simpa [oneByOne] using h
  omega

lemma oneByOne_legal (t : ℕ) : (run oneByOne t).Legal (oneByOne t) := by
  intro hv
  have hall : ∀ t < 40, (oneByOne t).rxCplTlpValid = true →
      ((run oneByOne t).outstanding[(oneByOne t).answers]?.map fun m => m.1.hdr.tag) =
        some (rxCplTlpHdrTag (oneByOne t).rxCplTlp.hdr) := by decide +kernel
  obtain ⟨m, hm, htag⟩ := Option.map_eq_some_iff.mp (hall t (oneByOne_valid hv) hv)
  exact ⟨m, hm, htag.symm⟩

lemma oneByOne_owner {t : ℕ} (hv : (oneByOne t).rxCplTlpValid = true) : ∀ p,
    ((run oneByOne t).engine p).recv.recvStateReg = .start → (run oneByOne t).owner (oneByOne t) = some p := by
  have hall : ∀ t < 40, (oneByOne t).rxCplTlpValid = true → ∀ p,
      ((run oneByOne t).engine p).recv.recvStateReg = .start →
        (run oneByOne t).owner (oneByOne t) = some p := by decide +kernel
  exact hall t (oneByOne_valid hv) hv

/-- No tag is handed out that the other engine holds. -/
lemma oneByOne_tag (t : ℕ) : ∀ p q, p ≠ q → ((run oneByOne t).engine p).tag.opTagFifoWe = true →
    ¬((run oneByOne t).engine q).Holds ((run oneByOne t).engine p).tag.opTagFifoWrTag := by
  by_cases ht : t < 30
  · have hall : ∀ t < 30, ∀ p q, p ≠ q → ((run oneByOne t).engine p).tag.opTagFifoWe = true →
        ¬((run oneByOne t).engine q).Holds ((run oneByOne t).engine p).tag.opTagFifoWrTag := by decide +kernel
    exact hall t ht
  · intro p q _ hwe
    have hidle : ∀ p, ((run oneByOne 30).engine p).req.reqStateReg = .idle ∧
        ((run oneByOne 30).engine p).tag.opTagFifoWe = false := by decide +kernel
    have hno : ∀ t, 30 ≤ t → (oneByOne t).descTxRdReqStart p = false := by
      intro t ht
      have h0 : (t == 0) = false := beq_false_of_ne (by omega)
      have h22 : (t == 22) = false := beq_false_of_ne (by omega)
      simp [oneByOne, h0, h22]
    have hlow := (idle_of_no_start hno (hidle p).1 (hidle p).2 (not_lt.mp ht)).2
    rw [hlow] at hwe
    cases hwe

lemma oneByOne_keptApart (t : ℕ) : (run oneByOne t).KeptApart (oneByOne t) where
  start p ht := by
    have hstart : (oneByOne t).descTxRdReqStart p = true := (take_iff.mp ht).2.1
    match p with
    | 0 =>
      obtain rfl : t = 22 := by simpa [oneByOne] using hstart
      have hwords : ∀ tag < 2 ^ 5, (((run oneByOne 22).engine 0).arrivedWords tag).length = 0 := by
        decide +kernel
      exact ⟨List.length_eq_zero_iff.mp (by decide +kernel), by decide +kernel, by decide +kernel,
        fun tag htag => List.length_eq_zero_iff.mp (hwords tag htag)⟩
    | 1 =>
      obtain rfl : t = 0 := by simpa [oneByOne] using hstart
      exact ⟨rfl, rfl, rfl, fun _ _ => rfl⟩
  tag := oneByOne_tag t
  data p tag hst := by
    simp only [RdState.stores, RdState.cplAccept, Bool.and_eq_true, beq_iff_eq] at hst
    have hv : (oneByOne t).rxCplTlpValid = true := by
      have hport := hst.1.2.1
      simp only [engineInput, ctrlInput, CtrlInput.txCplTlpValid] at hport
      exact hport
    exact oneByOne_owner hv p hst.1.1
  entry p _ := entry_of_wide512 ⟨rfl, rfl⟩ _

/-- Each engine has two MRds outstanding at one time, all of them are answered, and the H2C side hands out
its first tag while the list fetch still holds one. -/
theorem tags_unique_one_by_one : ((run oneByOne 9).outstanding.map fun m => (m.1.port, m.1.hdr.tag)) = [(1, 0), (1, 1)] ∧
    (((run oneByOne 24).engine 0).tag.opTagFifoWe = true ∧ ((run oneByOne 24).engine 1).Holds 1) ∧
    ((run oneByOne 31).outstanding.map fun m => (m.1.port, m.1.hdr.tag)) = [(0, 0), (0, 1)] ∧
    (run oneByOne 40).outstanding.length = 0 ∧ ∀ t, (run oneByOne t).TagsUnique := by
  refine ⟨by decide +kernel, by decide +kernel, by decide +kernel, by decide +kernel, ?_⟩
  exact tags_unique_of_apart oneByOne oneByOne_legal oneByOne_keptApart

end Link

end FpgaPcie
