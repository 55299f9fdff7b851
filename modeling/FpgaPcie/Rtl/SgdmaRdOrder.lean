import FpgaPcie.Rtl.SgdmaRdTransfer

/-!
# The list before the data

`SGDMA_RDRECV` is left for `SGDMA_RDSTART` on a rising edge of `desc_rd_req_sgdma_start`.
`sgdma_list_done_reg`, which is set with the last beat of the list, takes no part in it. So the
order of the two phases is in the hands of the one who starts the transfer.
-/

namespace FpgaPcie

variable {c : RdConfig}

/-- The read side with `sgdma_list_done_reg`, and the current list: the beats accepted in
`SGDMA_RDRECV`, and the entries read from the list FIFO. -/
structure SgRdTrace (c : RdConfig) where
  system : SgRdSystem c
  sgdmaListDoneReg : Bool
  list : List (AxisBeat c.busBytes)
  chosen : List SgEntry

namespace SgRdTrace

variable (y : SgRdTrace c) (i : SgRdInput c)

abbrev state : SgdmaRdState := y.system.state.reg.sgdmaRdStateReg

/-- `desc_rd_req_sgdma_start & ~desc_rd_req_sgdma_start_reg`. -/
def sgdmaEdge : Bool := i.descRdReqSgdmaStart && !y.system.state.reg.descRdReqSgdmaStartReg

/-- `cpld_rx_axis_tvalid & cpld_rx_axis_tready & cpld_rx_axis_tlast`. -/
def lastAccepted : Bool :=
  y.system.state.cpldRxAxisAccept i && y.system.state.sgdmaListRd.out.outReg.tlast

def sgdmaListDoneNext : Bool :=
  match y.state with
  | .rdrecv => if y.sgdmaEdge i then false else y.sgdmaListDoneReg || y.lastAccepted i
  | _ => y.sgdmaListDoneReg

def listNext : List (AxisBeat c.busBytes) :=
  match y.state with
  | .idle => []
  | .rdrecv => y.list ++ y.system.taken i
  | _ => y.list

def chosenNext : List SgEntry :=
  match y.state with
  | .idle => []
  | .rdstart =>
    if y.system.state.reg.dmaRdSglistFifoRdEnReg then y.chosen
    else y.chosen ++ y.system.state.dmaRdSglistFifo.words.head?.toList
  | _ => y.chosen

def step : SgRdTrace c where
  system := y.system.step i
  sgdmaListDoneReg := y.sgdmaListDoneNext i
  list := y.listNext i
  chosen := y.chosenNext

/-- The run from the state `s`. -/
def run (s : SgRdState c) (i : ℕ → SgRdInput c) : ℕ → SgRdTrace c
  | 0 => ⟨SgRdSystem.fresh s, false, [], []⟩
  | t + 1 => (run s i t).step (i t)

/-- The last beat of the list has been accepted. -/
def complete : Bool := y.list.any (·.tlast)

/-- The entries of the list so far. -/
def entries : List SgEntry := y.list.flatMap (·.kept.entries)

/-- A transfer that is started has its list: the edge comes in the cycle of the last beat or later. -/
def StartsListed : Prop :=
  y.state = .rdrecv → y.sgdmaEdge i = true → y.sgdmaListDoneReg = true ∨ y.lastAccepted i = true

end SgRdTrace

/-- The two phases do not overlap in the run from `s`. -/
structure ListFirst (s : SgRdState c) (i : ℕ → SgRdInput c) : Prop where
  /-- `SGDMA_RDSTART` has the whole list behind it. -/
  started : ∀ t, (SgRdTrace.run s i t).state = .rdstart → (SgRdTrace.run s i t).complete = true
  /-- So does every beat on `m_axis`. -/
  streamed : ∀ t, (SgRdTrace.run s i t).system.state.mAxisTlpTvalid = true →
    (SgRdTrace.run s i t).complete = true
  /-- The entries are chosen in list order. -/
  chosen : ∀ t, (SgRdTrace.run s i t).chosen <+: (SgRdTrace.run s i t).entries
  /-- The transfer does not end before the last one. -/
  emptied : ∀ t, (SgRdTrace.run s i t).state = .rdstart → (SgRdTrace.run s i (t + 1)).state = .idle →
    (SgRdTrace.run s i (t + 1)).chosen = (SgRdTrace.run s i (t + 1)).entries
  /-- With the lists of the driver and a legal host the stream carries the segments of the list only, and
  each of them in its turn. -/
  data : ∀ mem address n, c.Wide512 → ListOk mem address n → s.reg.descRdReqSglistStartDReg = false →
    ListStartsOnce i address n →
    (∀ t, (((SgRdSystem.fresh s).run i t).engine []).Legal mem
      (((SgRdSystem.fresh s).run i t).state.engineInput (i t))) →
    ∀ t, ((SgRdSystem.fresh s).run i t).launches <+: descriptors address n (sgList mem address n) ∧
      Begins mem (sgList mem address n) (((SgRdSystem.fresh s).run i t).accepted ++
        ((SgRdSystem.fresh s).run i t).offered)

/-! ### The list FIFO over a run -/

namespace SgRdTrace

variable {y : SgRdTrace c} {i : SgRdInput c}

@[simp] lemma step_reg : (y.step i).system.state.reg = y.system.state.sgdmaRdNext i := rfl

@[simp] lemma step_state : (y.step i).state = (y.system.state.sgdmaRdNext i).sgdmaRdStateReg := rfl

@[simp] lemma step_done : (y.step i).sgdmaListDoneReg = y.sgdmaListDoneNext i := rfl

@[simp] lemma step_list : (y.step i).list = y.listNext i := rfl

@[simp] lemma step_chosen : (y.step i).chosen = y.chosenNext := rfl

/-- The entries on the write port of the list FIFO. -/
def landing (y : SgRdTrace c) : List SgEntry :=
  if y.system.state.reg.dmaRdSglistFifoWrEnReg then
    y.system.state.reg.dmaRdSglistFifoWrDataReg.entries else []

/-- The entries that are left to be chosen. -/
def left (y : SgRdTrace c) : List SgEntry :=
  (if y.system.state.reg.dmaRdSglistFifoRdEnReg then y.system.state.dmaRdSglistFifo.words.tail
    else y.system.state.dmaRdSglistFifo.words) ++ y.landing

structure Ordered (y : SgRdTrace c) : Prop where
  done : y.sgdmaListDoneReg = (decide (y.state = .rdrecv) && y.complete)
  begun : y.state = .rdlist → y.list = []
  complete : y.state = .rdstart ∨ y.state = .endl → y.complete = true
  rdEn : y.system.state.reg.dmaRdSglistFifoRdEnReg = true → y.state = .rdstart
  room : y.system.state.dmaRdSglistFifo.words.length + y.landing.length ≤
    sglistFifoEntries c.busBytes sglistFifoDepth
  entries : y.chosen ++ y.left = y.entries
  empty : y.state = .idle ∨ y.state = .rdlist → y.left = []

lemma landing_length_le (y : SgRdTrace c) : y.landing.length ≤ c.busBytes / 16 := by
  unfold landing
  split
  · exact (Bytes.entries_length _).le
  · exact Nat.zero_le _

lemma left_length_le (y : SgRdTrace c) :
    y.left.length ≤ y.system.state.dmaRdSglistFifo.words.length + y.landing.length := by
  rw [left, List.length_append]
  split <;> simp

/-- Only `SGDMA_RDRECV` writes to the list FIFO. -/
lemma landing_step (y : SgRdTrace c) (i : SgRdInput c) : (y.step i).landing =
    if y.state = .rdrecv then (y.system.taken i).flatMap (·.kept.entries) else [] := by
  rw [landing, step_reg, SgRdState.sgdmaRdNext, state]
  cases y.system.state.reg.sgdmaRdStateReg with
  | idle => rfl
  | rdlist => cases y.system.state.reg.descRdReqSglistStartReg <;> rfl
  | rdrecv => cases ha : y.system.state.cpldRxAxisAccept i <;> simp [SgRdSystem.taken, ha]
  | rdstart =>
    cases y.system.state.reg.dmaRdSglistFifoRdEnReg with
    | true => rfl
    | false => cases y.system.state.dmaRdSglistFifo.words <;> rfl
  | endl => rfl

/-- Only `SGDMA_RDSTART` reads from it, an entry every other cycle. -/
lemma rdEn_step (y : SgRdTrace c) (i : SgRdInput c) :
    (y.step i).system.state.reg.dmaRdSglistFifoRdEnReg = (decide (y.state = .rdstart) &&
      !y.system.state.reg.dmaRdSglistFifoRdEnReg && !y.system.state.dmaRdSglistFifo.words.isEmpty) := by
  rw [step_reg, SgRdState.sgdmaRdNext, state]
  cases y.system.state.reg.sgdmaRdStateReg with
  | idle => rfl
  | rdlist => cases y.system.state.reg.descRdReqSglistStartReg <;> rfl
  | rdrecv => rfl
  | rdstart =>
    cases y.system.state.reg.dmaRdSglistFifoRdEnReg with
    | true => rfl
    | false => cases y.system.state.dmaRdSglistFifo.words <;> rfl
  | endl => rfl

lemma state_step (y : SgRdTrace c) (i : SgRdInput c) : (y.step i).state =
    match y.state with
    | .idle => if i.descRdReqSglistStart && !y.system.state.reg.descRdReqSglistStartDReg then .rdlist
        else .idle
    | .rdlist => if y.system.state.reg.descRdReqSglistStartReg then .rdrecv else .rdlist
    | .rdrecv => if y.sgdmaEdge i then .rdstart else .rdrecv
    | .rdstart =>
      if y.system.state.reg.dmaRdSglistFifoRdEnReg then .endl
      else if y.system.state.dmaRdSglistFifo.words.isEmpty &&
        !y.system.state.reg.dmaRdSglistFifoWrEnReg then .idle else .rdstart
    | .endl =>
      if y.system.state.reg.descRdReqSglistLengthReg = 0 then .rdstart
      else if y.lastAccepted i then .rdstart else .endl := by
  rw [step_state, SgRdState.sgdmaRdNext, state]
  cases y.system.state.reg.sgdmaRdStateReg with
  | idle => rfl
  | rdlist => cases y.system.state.reg.descRdReqSglistStartReg <;> simp
  | rdrecv => rfl
  | rdstart =>
    cases y.system.state.reg.dmaRdSglistFifoRdEnReg with
    | true => rfl
    | false =>
      cases y.system.state.dmaRdSglistFifo.words with
      | nil => cases y.system.state.reg.dmaRdSglistFifoWrEnReg <;> rfl
      | cons e rest => simp
  | endl => rfl

/-- An access of the read port is over before `SGDMA_RDSTART` is left for good. -/
lemma rdstart_of_rdEn (hrd : (y.step i).system.state.reg.dmaRdSglistFifoRdEnReg = true) :
    (y.step i).state = .rdstart := by
  rw [rdEn_step] at hrd
  simp only [Bool.and_eq_true, decide_eq_true_eq, Bool.not_eq_true'] at hrd
  obtain ⟨⟨hs, hlow⟩, hne⟩ := hrd
  rw [state_step, hs]
  simp [hlow, hne]

lemma state_inv (hs : (y.step i).state = .idle ∨ (y.step i).state = .rdlist) :
    y.state = .idle ∨ y.state = .rdlist ∨ y.state = .rdstart ∧ (y.step i).state = .idle ∧ y.left = [] := by
  have hnext := hs
  rw [state_step] at hs
  cases hstate : y.state with
  | idle => exact .inl rfl
  | rdlist => exact .inr (.inl rfl)
  | rdrecv =>
    rw [hstate] at hs
    dsimp only at hs
    split at hs <;> simp at hs
  | rdstart =>
    rw [hstate] at hs
    cases hrd : y.system.state.reg.dmaRdSglistFifoRdEnReg with
    | true => simp [hrd] at hs
    | false =>
      cases hw : y.system.state.dmaRdSglistFifo.words with
      | nil =>
        cases hwr : y.system.state.reg.dmaRdSglistFifoWrEnReg with
        | true => simp [hrd, hw, hwr] at hs
        | false =>
          refine .inr (.inr ⟨rfl, ?_, ?_⟩)
          · rw [state_step, hstate]
            simp [hrd, hw, hwr]
          · simp [left, landing, hrd, hw, hwr]
      | cons e rest => simp [hrd, hw] at hs
  | endl =>
    rw [hstate] at hs
    dsimp only at hs
    split at hs
    · simp at hs
    · split at hs <;> simp at hs

namespace Ordered

lemma words_next (h : y.Ordered) :
    (y.step i).system.state.dmaRdSglistFifo.words = y.left := by
  apply BoundedQueue.clock_words
  exact h.room

lemma room_next (h : y.Ordered) :
    (y.step i).system.state.dmaRdSglistFifo.words.length + (y.step i).landing.length ≤
      sglistFifoEntries c.busBytes sglistFifoDepth := by
  have hle := y.left_length_le
  have hroom := h.room
  have hland := y.landing_step i
  rw [h.words_next]
  by_cases hready : y.state = .rdrecv ∧ y.system.state.cpldRxAxisAccept i = true
  · obtain ⟨hs, ha⟩ := hready
    have hfull : y.system.state.dmaRdSglistFifo.alfull = false := by
      simpa [SgRdState.cpldRxAxisAccept, SgRdState.cpldRxAxisTready, hs] using And.right
        (Bool.and_eq_true_iff.mp ha)
    have hfit := of_decide_eq_false hfull
    have hone := y.landing_length_le
    have hone' := (y.step i).landing_length_le
    omega
  · have hnone : (y.step i).landing = [] := by
      rw [hland]
      split_ifs with hs
      · have ha : y.system.state.cpldRxAxisAccept i = false :=
          Bool.eq_false_of_not_eq_true fun ha => hready ⟨hs, ha⟩
        simp [SgRdSystem.taken, ha]
      · rfl
    rw [hnone, List.length_nil]
    omega

lemma chosen_step (h : y.Ordered) (hs : y.state ≠ .idle) :
    (y.step i).chosen ++ (y.step i).left = y.chosen ++ y.left ++ (y.step i).landing := by
  rw [left, h.words_next, rdEn_step, step_chosen, chosenNext]
  cases hstate : y.state with
  | idle => exact absurd hstate hs
  | rdlist => simp
  | rdrecv => simp
  | rdstart =>
    cases hrd : y.system.state.reg.dmaRdSglistFifoRdEnReg with
    | true => simp
    | false => cases hw : y.system.state.dmaRdSglistFifo.words <;> simp [left, hrd, hw]
  | endl => simp

lemma entries_next (h : y.Ordered) :
    (y.step i).chosen ++ (y.step i).left = (y.step i).entries := by
  by_cases hs : y.state = .idle
  · have hleft : (y.step i).left = [] := by
      rw [left, h.words_next, rdEn_step, landing_step, hs, h.empty (.inl hs)]
      rfl
    rw [hleft]
    simp [chosenNext, SgRdTrace.entries, listNext, hs]
  · rw [h.chosen_step hs, h.entries, landing_step]
    simp only [SgRdTrace.entries, step_list, listNext]
    cases hstate : y.state <;> simp_all

lemma complete_step (hs : y.state = .rdrecv) :
    (y.step i).complete = (y.complete || y.lastAccepted i) := by
  cases ha : y.system.state.cpldRxAxisAccept i <;>
    simp [SgRdTrace.complete, listNext, hs, lastAccepted, SgRdSystem.taken, ha]

lemma done_next (h : y.Ordered) : (y.step i).sgdmaListDoneReg =
    (decide ((y.step i).state = .rdrecv) && (y.step i).complete) := by
  have hdone := h.done
  rw [step_done, sgdmaListDoneNext, state_step]
  cases hs : y.state with
  | idle =>
    rw [hs] at hdone
    dsimp only
    split <;> exact hdone
  | rdlist =>
    rw [hs] at hdone
    simp [hdone, SgRdTrace.complete, listNext, hs, h.begun hs]
  | rdrecv =>
    rw [hs] at hdone
    rw [complete_step hs, hdone]
    cases y.sgdmaEdge i <;> simp
  | rdstart =>
    rw [hs] at hdone
    dsimp only
    split
    · exact hdone
    · split <;> exact hdone
  | endl =>
    rw [hs] at hdone
    dsimp only
    split
    · exact hdone
    · split <;> exact hdone

lemma complete_next (h : y.Ordered) (hlisted : y.StartsListed i)
    (hs : (y.step i).state = .rdstart ∨ (y.step i).state = .endl) : (y.step i).complete = true := by
  have hdone := h.done
  rw [state_step] at hs
  cases hstate : y.state with
  | idle =>
    rw [hstate] at hs
    dsimp only at hs
    split at hs <;> simp at hs
  | rdlist =>
    rw [hstate] at hs
    dsimp only at hs
    split at hs <;> simp at hs
  | rdrecv =>
    rw [hstate] at hs hdone
    simp only [decide_true, Bool.true_and] at hdone
    cases hedge : y.sgdmaEdge i with
    | true =>
      rw [complete_step hstate, ← hdone, Bool.or_eq_true]
      exact hlisted hstate hedge
    | false => simp [hedge] at hs
  | rdstart => simpa [SgRdTrace.complete, listNext, hstate] using h.complete (.inl hstate)
  | endl => simpa [SgRdTrace.complete, listNext, hstate] using h.complete (.inr hstate)

lemma begun_next (h : y.Ordered) (hs : (y.step i).state = .rdlist) : (y.step i).list = [] := by
  rw [step_list, listNext]
  rcases state_inv (.inr hs) with hstate | hstate | ⟨-, hidle, -⟩
  · rw [hstate]
  · rw [hstate]
    exact h.begun hstate
  · rw [hs] at hidle
    cases hidle

lemma empty_next (h : y.Ordered) (hs : (y.step i).state = .idle ∨ (y.step i).state = .rdlist) :
    (y.step i).left = [] := by
  have hquiet : y.left = [] ∧ y.state ≠ .rdrecv := by
    rcases state_inv hs with hstate | hstate | ⟨hstate, -, hleft⟩
    · exact ⟨h.empty (.inl hstate), by simp [hstate]⟩
    · exact ⟨h.empty (.inr hstate), by simp [hstate]⟩
    · exact ⟨hleft, by simp [hstate]⟩
  have hrd : (y.step i).system.state.reg.dmaRdSglistFifoRdEnReg = false := by
    by_contra hrd
    rw [rdstart_of_rdEn (by simpa using hrd)] at hs
    simp at hs
  rw [left, h.words_next, hrd, landing_step, if_neg hquiet.2, hquiet.1]
  rfl

theorem step (h : y.Ordered) (hlisted : y.StartsListed i) : (y.step i).Ordered where
  done := h.done_next
  begun := h.begun_next
  complete := h.complete_next hlisted
  rdEn := rdstart_of_rdEn
  room := h.room_next
  entries := h.entries_next
  empty := h.empty_next

end Ordered

lemma Ordered.startsListed (h : y.Ordered)
    (hstart : (y.step i).state = .rdstart → (y.step i).complete = true) : y.StartsListed i := by
  intro hs hedge
  have hdone := h.done
  rw [hs] at hdone
  have hcomplete := hstart (by rw [state_step, hs]; simp [hedge])
  rw [Ordered.complete_step hs, Bool.or_eq_true] at hcomplete
  simpa [hdone] using hcomplete

/-- The interrupt of a list comes with its last beat. -/
lemma irqSeen_eq (y : SgRdTrace c) (i : SgRdInput c) : (y.step i).system.irqSeen =
    (y.system.irqSeen || (decide (y.state = .rdrecv) && y.lastAccepted i)) := by
  show (y.system.irqSeen || (y.system.state.sgdmaRdNext i).txRdReqIrqReg) = _
  rw [SgRdState.sgdmaRdNext, state]
  cases y.system.state.reg.sgdmaRdStateReg with
  | idle => rfl
  | rdlist => cases y.system.state.reg.descRdReqSglistStartReg <;> rfl
  | rdrecv => rfl
  | rdstart =>
    cases y.system.state.reg.dmaRdSglistFifoRdEnReg with
    | true => rfl
    | false => cases y.system.state.dmaRdSglistFifo.words <;> rfl
  | endl => rfl

lemma irqSeen_step (h : y.sgdmaListDoneReg = true → y.system.irqSeen = true)
    (hdone : (y.step i).sgdmaListDoneReg = true) : (y.step i).system.irqSeen = true := by
  rw [step_done, sgdmaListDoneNext] at hdone
  rw [irqSeen_eq]
  cases hs : y.state with
  | rdrecv =>
    rw [hs] at hdone
    dsimp only at hdone
    split at hdone
    · cases hdone
    · rcases Bool.or_eq_true_iff.mp hdone with hd | hl
      · simp [h hd]
      · simp [hl]
  | idle | rdlist | rdstart | endl =>
    rw [hs] at hdone
    simp [h hdone]

/-- An interrupt that has been seen is that of the current list. -/
structure Told (y : SgRdTrace c) : Prop where
  fresh : y.state = .rdlist → y.system.irqSeen = false
  done : y.state = .rdrecv → y.system.irqSeen = true → y.sgdmaListDoneReg = true

lemma Told.step (h : y.Told) (hrise : y.state = .idle → (y.step i).state = .rdlist → y.system.irqSeen = false) :
    (y.step i).Told := by
  constructor
  · intro hs
    have hstep := state_step y i
    rw [irqSeen_eq]
    cases hstate : y.state with
    | idle => simp [hrise hstate hs]
    | rdlist => simp [h.fresh hstate]
    | rdrecv | rdstart | endl =>
      rw [hs, hstate] at hstep
      dsimp only at hstep
      split_ifs at hstep
  · intro hs hseen
    have hstep := state_step y i
    rw [irqSeen_eq] at hseen
    rw [step_done, sgdmaListDoneNext]
    cases hstate : y.state with
    | rdrecv =>
      have hedge : y.sgdmaEdge i = false := by
        rw [hs, hstate] at hstep
        dsimp only at hstep
        split_ifs at hstep with he
        simpa using he
      rw [hstate, decide_eq_true rfl, Bool.true_and] at hseen
      rw [hedge, if_neg Bool.false_ne_true]
      rcases Bool.or_eq_true_iff.mp hseen with hold | hlast
      · rw [h.done hstate hold, Bool.true_or]
      · rw [hlast, Bool.or_true]
    | rdlist => simp [hstate, h.fresh hstate] at hseen
    | idle | rdstart | endl =>
      rw [hs, hstate] at hstep
      dsimp only at hstep
      split_ifs at hstep

/-! ### Runs -/

variable {s : SgRdState c} {j : ℕ → SgRdInput c}

lemma run_system (s : SgRdState c) (j : ℕ → SgRdInput c) (t : ℕ) :
    (run s j t).system = (SgRdSystem.fresh s).run j t := by
  induction t with
  | zero => rfl
  | succ t ih =>
    show (run s j t).system.step (j t) = _
    rw [ih]
    rfl

lemma ordered_start (hquiet : s.Quiet) : (run s j 0).Ordered := by
  have hland : (run s j 0).landing = [] := by
    simp [landing, run, SgRdSystem.fresh, hquiet.wrEn]
  have hleft : (run s j 0).left = [] := by
    rw [left, hland]
    simp [run, SgRdSystem.fresh, hquiet.rdEn, hquiet.fifo]
  have hidle : (run s j 0).state = .idle := hquiet.idle
  refine ⟨?_, ?_, ?_, ?_, ?_, ?_, fun _ => hleft⟩
  · rw [hidle]
    rfl
  · exact fun _ => rfl
  · simp [hidle]
  · intro hrd
    rw [show (run s j 0).system.state.reg.dmaRdSglistFifoRdEnReg = false from hquiet.rdEn] at hrd
    cases hrd
  · rw [hland]
    simp [run, SgRdSystem.fresh, hquiet.fifo]
  · rw [hleft]
    rfl

theorem run_ordered (hquiet : s.Quiet) (t : ℕ)
    (hlisted : ∀ u, u < t → (run s j u).StartsListed (j u)) : (run s j t).Ordered := by
  induction t with
  | zero => exact ordered_start hquiet
  | succ t ih => exact (ih fun u hu => hlisted u (by omega)).step (hlisted t (Nat.lt_succ_self t))

/-- Who starts the transfer of a list behind its interrupt meets the condition. -/
theorem startsListed_of_irqSeen {address n : ℕ} (hquiet : s.Quiet) (hstart : ListStartsOnce j address n)
    (hwait : ∀ t, (j t).descRdReqSgdmaStart = true → (run s j t).system.irqSeen = true) (t : ℕ) :
    (run s j t).StartsListed (j t) := by
  have htold : ∀ t, (run s j t).Told := by
    intro t
    induction t with
    | zero =>
      have hidle : (run s j 0).state = .idle := hquiet.idle
      exact ⟨fun _ => rfl, fun hs => by simp [hidle] at hs⟩
    | succ t ih =>
      refine ih.step fun hs hrdlist => ?_
      match t with
      | 0 => rfl
      | t + 1 =>
        -- the list start does not rise again
        have honce := hstart.once t
        rw [state_step, hs, run_system, SgRdSystem.startDReg_succ] at hrdlist
        cases hnow : (j (t + 1)).descRdReqSglistStart with
        | false => simp [hnow] at hrdlist
        | true => simp [honce hnow] at hrdlist
  intro hs hedge
  rw [sgdmaEdge, Bool.and_eq_true] at hedge
  exact .inl ((htold t).done hs (hwait t hedge.1))

end SgRdTrace

/-! ### The transfer over a run -/

section Phases

variable {mem : HostMem} {address n : ℕ}

/-- The phases of a transfer that is started with the last beat of its list or later. -/
inductive ListPhase (mem : HostMem) (address n : ℕ) (x : SgRdSystem c) : Prop
  | loading (h : Loading address n x)
  | receiving (cur g) (h : Receiving mem address n x cur g)
  | listed (hs : x.state.reg.sgdmaRdStateReg = .rdrecv)
      (h : Resting mem address n x [] (sgList mem address n))
  | landing (hs : x.state.reg.sgdmaRdStateReg = .rdstart)
      (h : Resting mem address n x [] (sgList mem address n))
  | tail (h : SgTail mem address n x)

variable {y : SgRdTrace c} {i : SgRdInput c}

lemma sgList_ne_nil (hlist : ListOk mem address n) : sgList mem address n ≠ [] := by
  have hpos := hlist.pos
  intro hnil
  have hlen := congrArg List.length hnil
  rw [sgList_length, sgBeats, List.length_nil] at hlen
  omega

/-- The last beat of the list may still be on the write port of the list FIFO. -/
lemma Resting.land (hc : c.Wide512) (hlist : ListOk mem address n) {x : SgRdSystem c}
    (hs : x.state.reg.sgdmaRdStateReg = .rdstart)
    (h : Resting mem address n x [] (sgList mem address n)) : SgTail mem address n (x.step i) := by
  obtain ⟨e, rest, hcons⟩ := List.exists_cons_of_ne_nil (sgList_ne_nil hlist)
  by_cases hw : x.state.dmaRdSglistFifo.words = []
  · have hwr : x.state.reg.dmaRdSglistFifoWrEnReg = true := by
      by_contra hwr
      have hl := h.listed
      rw [SgRdSystem.listed, hw, if_neg hwr] at hl
      exact sgList_ne_nil hlist hl.symm
    refine .choosing _ _ ⟨?_, ?_, h.step hc hlist ?_ ?_ ?_⟩
    all_goals simp [SgRdState.sgdmaRdNext, hs, h.rdEn, hw, hwr, h.startReg]
  · rw [hcons] at h
    exact .popping _ _ _ (h.pop hc hlist hs hw)

theorem ListPhase.step (hc : c.Wide512) (hlist : ListOk mem address n)
    (hhost : (y.system.engine []).Legal mem (y.system.state.engineInput i))
    (hlow : i.descRdReqSglistStart = true → y.system.state.reg.descRdReqSglistStartDReg = true)
    (hirq : y.sgdmaListDoneReg = true → y.system.irqSeen = true) (hlisted : y.StartsListed i)
    (h : ListPhase mem address n y.system) : ListPhase mem address n (y.step i).system := by
  cases h with
  | loading h => exact .receiving _ _ (h.step hc hlist)
  | receiving cur g h =>
    by_cases hlt : (cur ++ y.system.taken i).length < sgBeats n
    · refine .receiving _ _ (h.step hc hlist hhost ?_ hlt)
      by_contra hedge
      -- an edge would need the last beat, now or before
      have hseen : (y.system.step i).irqSeen = true := by
        rcases hlisted h.state (Bool.eq_true_of_not_eq_false hedge) with hd | hl
        · simp [SgRdSystem.step, hirq hd]
        · have hl' : (y.system.state.cpldRxAxisAccept i &&
              y.system.state.sgdmaListRd.out.outReg.tlast) = true := hl
          simp [SgRdSystem.step, SgRdState.sgdmaRdNext, h.state, hl']
      rw [h.irqSeen_next hc hlist hhost, decide_eq_true_eq] at hseen
      omega
    · have hrest := h.rest hc hlist hhost (Nat.not_lt.mp hlt)
      have hnext := y.state_step i
      rw [show y.state = .rdrecv from h.state] at hnext
      cases hedge : y.sgdmaEdge i with
      | false => exact .listed (hnext.trans (by simp [hedge])) hrest
      | true => exact .landing (hnext.trans (by simp [hedge])) hrest
  | listed hs h =>
    have hrest := h.wait (i := i) hc hlist hs
    have hnext := y.state_step i
    rw [show y.state = .rdrecv from hs] at hnext
    cases hedge : y.sgdmaEdge i with
    | false => exact .listed (hnext.trans (by simp [hedge])) hrest
    | true => exact .landing (hnext.trans (by simp [hedge])) hrest
  | landing hs h => exact .tail (h.land hc hlist hs)
  | tail h => exact .tail (h.step hc hlist hhost hlow)

lemma ListPhase.shows {x : SgRdSystem c} (h : ListPhase mem address n x) :
    x.launches <+: descriptors address n (sgList mem address n) ∧
      Begins mem (sgList mem address n) (x.accepted ++ x.offered) := by
  cases h with
  | loading h => exact (SgPhase.loading h).shows
  | receiving cur g h => exact (SgPhase.receiving cur g h).shows
  | listed hs h => exact h.shows
  | landing hs h => exact h.shows
  | tail h => exact h.phase.shows

end Phases

/-- A list of the driver on a legal host: its transfer carries the segments only. -/
lemma listFirst_data {mem : HostMem} {address n : ℕ} {s : SgRdState c} {i : ℕ → SgRdInput c}
    (hc : c.Wide512) (hlist : ListOk mem address n) (hquiet : s.Quiet)
    (hrise : s.reg.descRdReqSglistStartDReg = false) (hstart : ListStartsOnce i address n)
    (hhost : ∀ t, (((SgRdSystem.fresh s).run i t).engine []).Legal mem
      (((SgRdSystem.fresh s).run i t).state.engineInput (i t)))
    (hlisted : ∀ t, (SgRdTrace.run s i t).StartsListed (i t)) (t : ℕ) :
    ((SgRdSystem.fresh s).run i t).launches <+: descriptors address n (sgList mem address n) ∧
      Begins mem (sgList mem address n) (((SgRdSystem.fresh s).run i t).accepted ++
        ((SgRdSystem.fresh s).run i t).offered) := by
  obtain ⟨hrdlist, hload⟩ := opening_run hc hquiet hrise hstart
  have hirq : ∀ t, (SgRdTrace.run s i t).sgdmaListDoneReg = true →
      (SgRdTrace.run s i t).system.irqSeen = true := by
    intro t
    induction t with
    | zero => exact fun h => nomatch h
    | succ t ih => exact SgRdTrace.irqSeen_step ih
  have hphase : ∀ t, ListPhase mem address n (SgRdTrace.run s i (t + 2)).system := by
    intro t
    induction t with
    | zero =>
      rw [SgRdTrace.run_system]
      exact .loading hload
    | succ t ih =>
      apply ih.step hc hlist _ _ (hirq _) (hlisted _)
      · rw [SgRdTrace.run_system]
        exact hhost (t + 2)
      · rw [SgRdTrace.run_system, SgRdSystem.startDReg_succ]
        exact hstart.once (t + 1)
  match t with
  | 0 => exact hquiet.opening.shows
  | 1 => exact hrdlist.shows
  | t + 2 =>
    have hshows := (hphase t).shows
    rwa [SgRdTrace.run_system] at hshows

/-- The list and the data phases do not overlap exactly when each start of a transfer comes with the
last beat of its list or later. -/
theorem list_first_iff (s : SgRdState c) (i : ℕ → SgRdInput c) (hquiet : s.Quiet) :
    ListFirst s i ↔ ∀ t, (SgRdTrace.run s i t).StartsListed (i t) := by
  constructor
  · intro h t
    induction t using Nat.strong_induction_on with
    | _ t ih => exact (SgRdTrace.run_ordered hquiet t ih).startsListed (h.started (t + 1))
  · intro hlisted
    have hord := fun t => SgRdTrace.run_ordered hquiet t fun u _ => hlisted u
    refine ⟨fun t hs => (hord t).complete (.inl hs), fun t hv => (hord t).complete (.inr ?_),
      fun t => ⟨_, (hord t).entries⟩, fun t hs hidle => ?_,
      fun mem address n hc hlist hrise hstart hhost =>
        listFirst_data hc hlist hquiet hrise hstart hhost hlisted⟩
    · simp only [SgRdState.mAxisTlpTvalid, Bool.and_eq_true, beq_iff_eq] at hv
      exact hv.1
    · have hentries := (hord (t + 1)).entries
      rwa [(hord (t + 1)).empty (.inl hidle), List.append_nil] at hentries

/-- A list of two beats with four segments, whose transfer is started when the interrupt has come. -/
theorem list_first_iff_served :
    let s := SgRdState.reset ⟨6, 5, 0, 2, tagWidth_five, payloadSize_two⟩
    ListFirst s ((SgRdSystem.fresh s).servedInput sampleList 4096 5) := by
  intro s
  have hstart := SgRdSystem.servedInput_starts sampleList 4096 5 (SgRdSystem.fresh s)
  refine (list_first_iff s _ (sgRdReset_quiet _)).mpr (SgRdTrace.startsListed_of_irqSeen (sgRdReset_quiet _) hstart ?_)
  intro t ht
  rw [SgRdTrace.run_system, SgRdSystem.run_servedInput]
  exact ht

/-- A list of two beats whose second beat comes in cycle 14, and a transfer that is started in
cycle 13. -/
def startsEarly (t : ℕ) : SgRdInput ⟨6, 5, 0, 2, tagWidth_five, payloadSize_two⟩ where
  descRdReqSglistLength := 128
  descRdReqSglistAddress := 4096
  descRdReqSglistStart := t == 0
  descRdReqSgdmaStart := decide (13 ≤ t)
  txRdReqTlpReady := true
  rxCplTlpValid := t == 6 || t == 14
  rxCplTlpHdr := cplHdrOfTag 0
  rxCplTlpData := fun j => if j.val % 16 = 1 then 32 else if j.val % 16 = 8 then 64 else 0
  mAxisTlpTready := true

/-- The second beat of the list goes out on the stream, as data of the first segment. -/
theorem list_beat_streamed : ¬ListFirst (SgRdState.reset _) startsEarly := by
  intro h
  have hcomplete := h.streamed 19 (by decide +kernel)
  have hnot : (SgRdTrace.run (SgRdState.reset _) startsEarly 19).complete = false := by decide +kernel
  rw [hnot] at hcomplete
  cases hcomplete

end FpgaPcie
