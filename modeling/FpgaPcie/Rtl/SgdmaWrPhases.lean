import FpgaPcie.Rtl.DmaWrPacketise
import FpgaPcie.Rtl.SgdmaWrEngine

/-!
# The phases of a list transfer to the host

A transfer goes through requesting the list, receiving it, waiting for the start, and then for
each entry through choosing it, popping it, writing its segment (if it has one) and ending it.
Each phase states what the registers, the list FIFO, the engine and the logs hold, and one
clock edge leads from a phase to itself or to the next one.
-/

namespace FpgaPcie

variable {c : SgWrConfig} {mem : HostMem} {address n : ℕ} {x : SgWrSystem c} {i : SgWrInput c}
  {cur : List (SAxisBeat c.wr.busBytes)} {out : List (WrBeat c.wr)}

/-! ### What has been written -/

/-- The stream beats and the TLP beats of one segment. -/
structure EntryWritten (c : WrConfig) (e : SgEntry)
    (part : List (SAxisBeat c.busBytes) × List (WrBeat c)) : Prop where
  length_eq : part.1.length = e.beats
  packets : Packets c e.address e.length part.1 part.2

/-- The stream beats and the TLP beats are those of the segments of `entries`, one after the
other, each one whole. -/
def Written (c : WrConfig) (entries : List SgEntry) (stream : List (SAxisBeat c.busBytes))
    (beats : List (WrBeat c)) : Prop :=
  ∃ parts : List (List (SAxisBeat c.busBytes) × List (WrBeat c)),
    List.Forall₂ (EntryWritten c) (segments entries) parts ∧
      stream = (parts.map Prod.fst).flatten ∧ beats = (parts.map Prod.snd).flatten

namespace Written

variable {c : WrConfig} {entries : List SgEntry} {stream : List (SAxisBeat c.busBytes)}
  {beats : List (WrBeat c)}

lemma nil (c : WrConfig) : Written c [] [] [] := ⟨[], List.Forall₂.nil, rfl, rfl⟩

lemma snoc {e : SgEntry} {part : List (SAxisBeat c.busBytes)} {tlps : List (WrBeat c)}
    (h : Written c entries stream beats) (hz : e ≠ SgEntry.zero) (hp : EntryWritten c e (part, tlps)) :
    Written c (entries ++ [e]) (stream ++ part) (beats ++ tlps) := by
  obtain ⟨parts, hparts, rfl, rfl⟩ := h
  refine ⟨parts ++ [(part, tlps)], ?_, by simp, by simp⟩
  rw [segments_append, segments_singleton hz]
  exact List.rel_append hparts (List.Forall₂.cons hp List.Forall₂.nil)

lemma snoc_zero (h : Written c entries stream beats) :
    Written c (entries ++ [SgEntry.zero]) stream beats := by
  unfold Written
  rw [segments_append, segments_zero, List.append_nil]
  exact h

end Written

/-! ### The phases -/

/-- A 512-bit bus and payloads of at most 512 bytes. -/
structure SgWrConfig.Supported (c : SgWrConfig) : Prop where
  width : c.wr.offsetWidth = 6
  code : c.wr.maxPayloadSize ≤ 2

/-- A list whose segments the byte counter can count. -/
structure WrListOk (mem : HostMem) (address n : ℕ) : Prop where
  list : ListOk mem address n
  length_le : ∀ e ∈ sgList mem address n, e.length ≤ 2 ^ 32 - 64

section Phases

variable (mem : HostMem) (address n : ℕ)

/-- The list has been received; the entries `done` have left the list FIFO, the entries `rest` are
in it. -/
structure Frame (x : SgWrSystem c) (done rest : List SgEntry) : Prop where
  entries : done ++ rest = sgList mem address n
  fifo : x.state.dmaWrSglistFifo.words = rest
  requested : x.requested = [(address, 16 * n)]
  received : x.received = sgBeats n

/-- The entries `done` have been written, and the engine is between two descriptors. -/
structure WrResting (x : SgWrSystem c) (done rest : List SgEntry) : Prop where
  rden : x.state.reg.dmaWrSglistFifoRdenReg = false
  engine : x.EngineIdle
  frame : Frame mem address n x done rest
  written : Written c.wr done x.accepted x.emitted

/-- Nothing has been written yet. -/
structure WrOpening (x : SgWrSystem c) : Prop where
  rden : x.state.reg.dmaWrSglistFifoRdenReg = false
  count : x.state.reg.sgdmaStageCountReg = 0
  irqReg : x.state.reg.txWrSglistIrqReg = false
  engine : x.EngineIdle
  accepted : x.accepted = []
  emitted : x.emitted = []
  irqSeen : x.irqSeen = false

/-- The descriptor of the list is in the registers. -/
structure WrLoading (x : SgWrSystem c) : Prop where
  state : x.state.reg.sgdmaStateReg = .rdlist
  startReg : x.state.reg.descWrReqSglistStartReg = true
  addressReg : x.state.reg.descWrReqSglistAddressReg = address
  lengthReg : x.state.reg.descWrReqSglistLengthReg = 16 * n
  opening : WrOpening x
  fifo : x.state.dmaWrSglistFifo.words = []
  requested : x.requested = []
  received : x.received = 0

/-- The list is coming in. -/
structure WrReceiving (x : SgWrSystem c) : Prop where
  state : x.state.reg.sgdmaStateReg = .rdrecv
  opening : WrOpening x
  fifo : x.state.dmaWrSglistFifo.words = (List.range (4 * x.received)).map (sgEntry mem address n)
  requested : x.requested = [(address, 16 * n)]
  received_lt : x.received < sgBeats n

/-- The list is complete and the transfer is not started. -/
structure WrWaiting (x : SgWrSystem c) : Prop where
  state : x.state.reg.sgdmaStateReg = .rdrecv
  count : x.state.reg.sgdmaStageCountReg = 0
  resting : WrResting mem address n x [] (sgList mem address n)
  irqSeen : x.irqSeen = true

/-- The next entry is about to be chosen. -/
structure WrChoosing (x : SgWrSystem c) (done rest : List SgEntry) : Prop where
  state : x.state.reg.sgdmaStateReg = .wrmem
  count : x.state.reg.sgdmaStageCountReg = 0
  resting : WrResting mem address n x done rest

/-- The entry `e` leaves the list FIFO. -/
structure WrPopping (x : SgWrSystem c) (done : List SgEntry) (e : SgEntry) (rest : List SgEntry) :
    Prop where
  state : x.state.reg.sgdmaStateReg = .wrmem
  rden : x.state.reg.dmaWrSglistFifoRdenReg = true
  count : x.state.reg.sgdmaStageCountReg = 0
  frame : Frame mem address n x done (e :: rest)
  written : Written c.wr done x.accepted x.emitted

/-- The engine has just been launched. -/
structure WrLaunched (x : SgWrSystem c) (e : SgEntry) : Prop where
  ne_zero : e ≠ SgEntry.zero
  runs : x.EngineRuns e.address e.length [] []
  tready : x.state.sgdmaWr.reg.sAxisTlpTreadyReg = false

/-- The segment of `e` is being written: `cur` has been accepted and `out` has been sent. -/
structure WrWriting (x : SgWrSystem c) (done : List SgEntry) (e : SgEntry) (rest : List SgEntry)
    (cur : List (SAxisBeat c.wr.busBytes)) (out : List (WrBeat c.wr)) : Prop where
  state : x.state.reg.sgdmaStateReg = .wrend
  rden : x.state.reg.dmaWrSglistFifoRdenReg = false
  lengthReg : x.state.reg.descTxWrLengthReg = e.length
  count : x.state.reg.sgdmaStageCountReg = 64 * out.length
  count_lt : 64 * out.length < e.length
  ne_zero : e ≠ SgEntry.zero
  engineStart : x.state.sgdmaWr.reg.descWrReqStartReg = false
  runs : x.EngineRuns e.address e.length cur out
  frame : Frame mem address n x (done ++ [e]) rest
  written : ∃ whole sent, Written c.wr done whole sent ∧ x.accepted = whole ++ cur ∧
    x.emitted = sent ++ out

/-- The last popped entry is complete. -/
structure WrEnding (x : SgWrSystem c) (done rest : List SgEntry) : Prop where
  state : x.state.reg.sgdmaStateReg = .wrend
  count : x.state.reg.descTxWrLengthReg ≤ x.state.reg.sgdmaStageCountReg
  resting : WrResting mem address n x done rest

/-- All entries have been written. -/
structure WrFinished (x : SgWrSystem c) : Prop where
  state : x.state.reg.sgdmaStateReg = .idle
  resting : WrResting mem address n x (sgList mem address n) []

end Phases

/-! ### Clock edges that keep the list -/

section Frame

variable {done rest : List SgEntry} {e : SgEntry}

lemma Frame.not_wren (hlegal : x.Legal mem i) (h : Frame mem address n x done rest) :
    x.state.dmaWrSglistFifoWren i = false := by
  have hv : i.sglistAxisTvalid = false := by
    by_contra hv
    obtain ⟨a, l, hreq, hlt, -⟩ := hlegal.reader (by simpa using hv)
    rw [h.requested] at hreq
    obtain ⟨rfl, rfl⟩ := Prod.mk.inj (List.singleton_inj.mp hreq)
    have hall := h.received
    unfold sgBeats at hall
    omega
  simp [SgWrState.dmaWrSglistFifoWren, hv]

lemma Frame.head (h : Frame mem address n x done (e :: rest)) :
    x.state.dmaWrSglistFifoDout = e ∧ x.state.dmaWrSglistFifoEmpty = false := by
  simp [SgWrState.dmaWrSglistFifoDout, SgWrState.dmaWrSglistFifoEmpty, h.fifo]

lemma Frame.empty (h : Frame mem address n x done []) : x.state.dmaWrSglistFifoEmpty = true := by
  simp [SgWrState.dmaWrSglistFifoEmpty, h.fifo]

lemma requested_step (hs : x.state.reg.sgdmaStateReg ≠ .rdlist) :
    (x.step i).requested = x.requested := by
  simp [SgWrSystem.step, SgWrState.descTxRdReqStartInit, hs]

lemma Frame.fifo_next (hlegal : x.Legal mem i) (h : Frame mem address n x done rest) :
    (x.step i).state.dmaWrSglistFifo.words =
      if x.state.reg.dmaWrSglistFifoRdenReg then rest.tail else rest := by
  have hw := h.not_wren hlegal
  simp [SgWrSystem.step, SgWrState.step, hw, h.fifo]

lemma Frame.received_next (hlegal : x.Legal mem i) (h : Frame mem address n x done rest) :
    (x.step i).received = sgBeats n := by
  have hw := h.not_wren hlegal
  simp [SgWrSystem.step, hw, h.received]

lemma Frame.step (hlegal : x.Legal mem i) (hs : x.state.reg.sgdmaStateReg ≠ .rdlist)
    (hrd : x.state.reg.dmaWrSglistFifoRdenReg = false) (h : Frame mem address n x done rest) :
    Frame mem address n (x.step i) done rest := by
  refine ⟨h.entries, ?_, ?_, h.received_next hlegal⟩
  · rw [h.fifo_next hlegal, hrd, if_neg Bool.false_ne_true]
  · rw [requested_step hs, h.requested]

lemma Frame.pop (hlegal : x.Legal mem i) (hs : x.state.reg.sgdmaStateReg ≠ .rdlist)
    (hrd : x.state.reg.dmaWrSglistFifoRdenReg = true) (h : Frame mem address n x done (e :: rest)) :
    Frame mem address n (x.step i) (done ++ [e]) rest := by
  refine ⟨?_, ?_, ?_, h.received_next hlegal⟩
  · rw [← List.append_cons]
    exact h.entries
  · rw [h.fifo_next hlegal, hrd, if_pos rfl, List.tail_cons]
  · rw [requested_step hs, h.requested]

lemma WrResting.step (hlegal : x.Legal mem i) (hs : x.state.reg.sgdmaStateReg ≠ .rdlist)
    (hstart : x.state.descTxWrStartInit = false)
    (hrd : (x.state.sgdmaNext i).dmaWrSglistFifoRdenReg = false)
    (h : WrResting mem address n x done rest) : WrResting mem address n (x.step i) done rest := by
  refine ⟨hrd, h.engine.step hstart, h.frame.step hlegal hs h.rden, ?_⟩
  rw [h.engine.accepted, h.engine.emitted]
  exact h.written

end Frame

/-! ### Receiving the list -/

section Opening

lemma WrOpening.step (h : WrOpening x) (hstart : x.state.descTxWrStartInit = false)
    (hrd : (x.state.sgdmaNext i).dmaWrSglistFifoRdenReg = false)
    (hcount : (x.state.sgdmaNext i).sgdmaStageCountReg = 0)
    (hirq : (x.state.sgdmaNext i).txWrSglistIrqReg = false) : WrOpening (x.step i) := by
  refine ⟨hrd, hcount, hirq, h.engine.step hstart, ?_, ?_, ?_⟩
  · rw [h.engine.accepted, h.accepted]
  · rw [h.engine.emitted, h.emitted]
  · simp [SgWrSystem.step, h.irqSeen, hirq]

lemma WrLoading.step (hlist : WrListOk mem address n) (hlegal : x.Legal mem i)
    (h : WrLoading address n x) : WrReceiving mem address n (x.step i) := by
  have hn := hlist.list.pos
  have hv : i.sglistAxisTvalid = false := by
    by_contra hv
    obtain ⟨a, l, hreq, -⟩ := hlegal.reader (by simpa using hv)
    rw [h.requested] at hreq
    cases hreq
  have hw : x.state.dmaWrSglistFifoWren i = false := by simp [SgWrState.dmaWrSglistFifoWren, hv]
  have hreceived : (x.step i).received = 0 := by simp [SgWrSystem.step, hw, h.received]
  refine ⟨?_, h.opening.step ?_ ?_ ?_ ?_, ?_, ?_, ?_⟩
  · simp [SgWrState.sgdmaNext, h.state, h.startReg]
  · simp [SgWrState.descTxWrStartInit, h.state]
  · simp [SgWrState.sgdmaNext, h.state, h.opening.rden]
  · simp [SgWrState.sgdmaNext, h.state, h.opening.count]
  · simp [SgWrState.sgdmaNext, h.state]
  · rw [hreceived]
    simp [SgWrSystem.step, SgWrState.step, hw, h.fifo, h.opening.rden]
  · simp [SgWrSystem.step, SgWrState.descTxRdReqStartInit, h.state, h.startReg, h.requested, h.addressReg,
      h.lengthReg]
  · rw [hreceived, sgBeats]
    omega

end Opening

section Receiving

lemma WrReceiving.room (hc : c.Supported) (hlist : WrListOk mem address n)
    (h : WrReceiving mem address n x) :
    x.state.dmaWrSglistFifo.words.length + 4 ≤ sglistFifoEntries c.rd.busBytes sglistFifoDepthWr ∧
      x.state.dmaWrSglistFifo.alfull = false := by
  have hbytes : c.rd.busBytes = 64 := by simp [RdConfig.busBytes, c.width_eq, hc.width]
  have hcap : sglistFifoEntries c.rd.busBytes sglistFifoDepthWr = 4096 := by
    simp [sglistFifoEntries, hbytes, sglistFifoDepthWr]
  have hle := hlist.list.sgBeats_le
  have hlt := h.received_lt
  have hlen := congrArg List.length h.fifo
  rw [List.length_map, List.length_range] at hlen
  have hb : 2 * (c.rd.busBytes / 16) = 8 := by rw [hbytes]
  exact ⟨by omega, decide_eq_false (by omega)⟩

lemma WrReceiving.wren (hc : c.Supported) (hlist : WrListOk mem address n)
    (h : WrReceiving mem address n x) : x.state.dmaWrSglistFifoWren i = i.sglistAxisTvalid := by
  simp [SgWrState.dmaWrSglistFifoWren, SgWrState.sglistAxisTreadyInit, (h.room hc hlist).2]

lemma WrReceiving.received_next (hc : c.Supported) (hlist : WrListOk mem address n)
    (h : WrReceiving mem address n x) :
    (x.step i).received = x.received + i.sglistAxisTvalid.toNat := by
  rw [SgWrSystem.step, h.wren hc hlist]

variable (hc : c.Supported) (hlist : WrListOk mem address n) (hlegal : x.Legal mem i)
  (h : WrReceiving mem address n x)
include hlegal h

lemma WrReceiving.beat (hv : i.sglistAxisTvalid = true) :
    BeatOk mem address (16 * n) x.received i.sglistAxis := by
  obtain ⟨a, l, hreq, -, hbeat⟩ := hlegal.reader hv
  rw [h.requested] at hreq
  obtain ⟨rfl, rfl⟩ := Prod.mk.inj (List.singleton_inj.mp hreq)
  exact hbeat

lemma WrReceiving.state_next : (x.state.sgdmaNext i).sgdmaStateReg = .rdrecv := by
  have hs : i.descWrReqSgdmaStart = false := by
    by_contra hs
    have hseen := hlegal.sgdmaStart (by simpa using hs)
    rw [h.opening.irqSeen] at hseen
    cases hseen
  simp [SgWrState.sgdmaNext, h.state, hs]

include hc hlist

lemma WrReceiving.fifo_next : (x.step i).state.dmaWrSglistFifo.words =
    (List.range (4 * (x.step i).received)).map (sgEntry mem address n) := by
  rw [h.received_next hc hlist, SgWrSystem.step, SgWrState.step, h.wren hc hlist, h.opening.rden]
  cases hv : i.sglistAxisTvalid with
  | false => simp [h.fifo]
  | true =>
    have hbeat := (h.beat hlegal hv).entries (c.width_eq.trans hc.width)
    have hroom := (h.room hc hlist).1
    have hlen : i.sglistAxis.kept.entries.length = 4 := by
      rw [hbeat, List.length_map, List.length_range]
    rw [if_pos rfl, BoundedQueue.clock_words _ _ _ (by omega), hbeat, h.fifo, Bool.toNat_true, Nat.mul_succ,
      List.range_add, List.map_append, List.map_map]
    rfl

lemma WrReceiving.irq_next :
    (x.state.sgdmaNext i).txWrSglistIrqReg = decide (sgBeats n ≤ (x.step i).received) := by
  have hlt := h.received_lt
  rw [h.received_next hc hlist]
  simp only [SgWrState.sgdmaNext, h.state, h.opening.irqReg, h.wren hc hlist]
  cases hv : i.sglistAxisTvalid with
  | false => simp [hlt]
  | true =>
    have hlast := (h.beat hlegal hv).tlast
    simp only [hlast, Bool.not_false, Bool.true_and, Bool.and_true, Bool.toNat_true, decide_eq_decide]
    unfold sgBeats at hlt ⊢
    omega

lemma WrReceiving.step (hlt : (x.step i).received < sgBeats n) :
    WrReceiving mem address n (x.step i) := by
  have hirq := h.irq_next hc hlist hlegal
  rw [decide_eq_false (by omega)] at hirq
  refine ⟨h.state_next hlegal, h.opening.step ?_ ?_ ?_ hirq, h.fifo_next hc hlist hlegal, ?_, hlt⟩
  · simp [SgWrState.descTxWrStartInit, h.state]
  · simp [SgWrState.sgdmaNext, h.state, h.opening.rden]
  · simp [SgWrState.sgdmaNext, h.state, h.opening.count]
  · rw [requested_step (by simp [h.state]), h.requested]

lemma WrReceiving.complete (hall : sgBeats n ≤ (x.step i).received) :
    WrWaiting mem address n (x.step i) := by
  have hirq := h.irq_next hc hlist hlegal
  rw [decide_eq_true hall] at hirq
  have hcount : (x.step i).received = sgBeats n := by
    have hnext := h.received_next (i := i) hc hlist
    have hone := Bool.toNat_le i.sglistAxisTvalid
    have := h.received_lt
    omega
  have hfifo := h.fifo_next hc hlist hlegal
  rw [hcount] at hfifo
  refine ⟨h.state_next hlegal, ?_, ⟨?_, h.opening.engine.step ?_, ⟨rfl, hfifo, ?_, hcount⟩, ?_⟩, ?_⟩
  · simp [SgWrState.sgdmaNext, h.state, h.opening.count]
  · simp [SgWrState.sgdmaNext, h.state, h.opening.rden]
  · simp [SgWrState.descTxWrStartInit, h.state]
  · rw [requested_step (by simp [h.state]), h.requested]
  · rw [h.opening.engine.accepted, h.opening.engine.emitted, h.opening.accepted, h.opening.emitted]
    exact Written.nil c.wr
  · simp [SgWrSystem.step, hirq]

end Receiving

/-! ### Between two entries -/

section Resting

variable {done rest : List SgEntry} {e : SgEntry} (hlegal : x.Legal mem i)
include hlegal

lemma WrWaiting.resting_next (h : WrWaiting mem address n x) :
    WrResting mem address n (x.step i) [] (sgList mem address n) := by
  apply h.resting.step hlegal
  · simp [h.state]
  · simp [SgWrState.descTxWrStartInit, h.state]
  · simp [SgWrState.sgdmaNext, h.state, h.resting.rden]

lemma WrWaiting.step (h : WrWaiting mem address n x) (hs : i.descWrReqSgdmaStart = false) :
    WrWaiting mem address n (x.step i) := by
  refine ⟨?_, ?_, h.resting_next hlegal, ?_⟩
  · simp [SgWrState.sgdmaNext, h.state, hs]
  · simp [SgWrState.sgdmaNext, h.state, h.count]
  · simp [SgWrSystem.step, h.irqSeen]

lemma WrWaiting.started (h : WrWaiting mem address n x) (hs : i.descWrReqSgdmaStart = true) :
    WrChoosing mem address n (x.step i) [] (sgList mem address n) := by
  refine ⟨?_, ?_, h.resting_next hlegal⟩
  · simp [SgWrState.sgdmaNext, h.state, hs]
  · simp [SgWrState.sgdmaNext, h.state, h.count]

lemma WrChoosing.pop (h : WrChoosing mem address n x done (e :: rest)) :
    WrPopping mem address n (x.step i) done e rest := by
  obtain ⟨-, hempty⟩ := h.resting.frame.head
  refine ⟨?_, ?_, ?_, h.resting.frame.step hlegal (by simp [h.state]) h.resting.rden, ?_⟩
  · simp [SgWrState.sgdmaNext, h.state, h.resting.rden]
  · simp [SgWrState.sgdmaNext, h.state, h.resting.rden, hempty]
  · simp [SgWrState.sgdmaNext, h.state, h.resting.rden, h.count]
  · rw [h.resting.engine.accepted, h.resting.engine.emitted]
    exact h.resting.written

omit hlegal in
lemma WrChoosing.idle (h : WrChoosing mem address n x done (SgEntry.zero :: rest)) :
    (x.step i).EngineIdle := by
  obtain ⟨hdout, -⟩ := h.resting.frame.head
  apply h.resting.engine.step
  simp [SgWrState.descTxWrStartInit, hdout]

omit hlegal in
lemma WrChoosing.launch (hc : c.Supported) (hlist : WrListOk mem address n) (hz : e ≠ SgEntry.zero)
    (h : WrChoosing mem address n x done (e :: rest)) : WrLaunched (x.step i) e := by
  obtain ⟨hdout, hempty⟩ := h.resting.frame.head
  obtain ⟨-, hpos⟩ := hlist.list.segment e (by simp [← h.resting.frame.entries]) hz
  have hcode := hc.code
  have hstart : x.state.descTxWrStartInit = true := by
    simp [SgWrState.descTxWrStartInit, h.state, h.resting.rden, hempty, hdout, hz]
  obtain ⟨hruns, hready⟩ := h.resting.engine.launch (i := i) (by omega) hstart (by rw [hdout]; exact hpos)
  rw [hdout] at hruns
  exact ⟨hz, hruns, hready⟩

lemma WrPopping.skip (he : x.EngineIdle) (h : WrPopping mem address n x done SgEntry.zero rest) :
    WrEnding mem address n (x.step i) (done ++ [SgEntry.zero]) rest := by
  obtain ⟨hdout, -⟩ := h.frame.head
  refine ⟨?_, ?_, ?_, he.step ?_, h.frame.pop hlegal (by simp [h.state]) h.rden, ?_⟩
  · simp [SgWrState.sgdmaNext, h.state, h.rden]
  · simp [SgWrState.sgdmaNext, h.state, h.rden, hdout]
  · simp [SgWrState.sgdmaNext, h.state, h.rden]
  · simp [SgWrState.descTxWrStartInit, h.rden]
  · rw [he.accepted, he.emitted]
    exact h.written.snoc_zero

lemma WrEnding.choose (h : WrEnding mem address n x done (e :: rest)) :
    WrChoosing mem address n (x.step i) done (e :: rest) := by
  obtain ⟨-, hempty⟩ := h.resting.frame.head
  refine ⟨?_, ?_, h.resting.step hlegal ?_ ?_ ?_⟩
  · simp [SgWrState.sgdmaNext, h.state, h.count, hempty]
  · simp [SgWrState.sgdmaNext, h.state, h.count, hempty]
  · simp [h.state]
  · simp [SgWrState.descTxWrStartInit, h.state]
  · simp [SgWrState.sgdmaNext, h.state, h.count, hempty, h.resting.rden]

lemma WrEnding.finish (h : WrEnding mem address n x done []) : WrFinished mem address n (x.step i) := by
  have hempty := h.resting.frame.empty
  have hdone := h.resting.frame.entries
  rw [List.append_nil] at hdone
  subst hdone
  refine ⟨?_, h.resting.step hlegal ?_ ?_ ?_⟩
  · simp [SgWrState.sgdmaNext, h.state, h.count, hempty]
  · simp [h.state]
  · simp [SgWrState.descTxWrStartInit, h.state]
  · simp [SgWrState.sgdmaNext, h.state, h.count, hempty, h.resting.rden]

lemma WrFinished.step
    (hs : i.descWrReqSglistStart = true → x.state.reg.descWrReqSglistStartReg = true)
    (h : WrFinished mem address n x) : WrFinished mem address n (x.step i) := by
  have hrise : (i.descWrReqSglistStart && !x.state.reg.descWrReqSglistStartReg) = false := by
    cases hi : i.descWrReqSglistStart with
    | false => rfl
    | true => rw [hs hi]; rfl
  refine ⟨?_, h.resting.step hlegal ?_ ?_ ?_⟩
  · simp [SgWrState.sgdmaNext, h.state, hrise]
  · simp [h.state]
  · simp [SgWrState.descTxWrStartInit, h.state]
  · simp [SgWrState.sgdmaNext, h.state, hrise, h.resting.rden]

end Resting

/-! ### Writing a segment -/

section Writing

variable {done rest : List SgEntry} {e : SgEntry}

lemma WrPopping.write (hc : c.Supported) (hlist : WrListOk mem address n) (hlegal : x.Legal mem i)
    (hl : WrLaunched x e) (h : WrPopping mem address n x done e rest) :
    WrWriting mem address n (x.step i) done e rest [] [] := by
  obtain ⟨hdout, -⟩ := h.frame.head
  have hmem : e ∈ sgList mem address n := by simp [← h.frame.entries]
  obtain ⟨-, hpos⟩ := hlist.list.segment e hmem hl.ne_zero
  have hlen := hlist.length_le e hmem
  have hcode := hc.code
  have hstart : x.state.descTxWrStartInit = false := by simp [SgWrState.descTxWrStartInit, h.rden]
  have htaken : x.taken i = [] := by
    simp [SgWrSystem.taken, WrState.validInit, WrState.sAxisAccept, hl.tready]
  have hsent : x.sent i = [] := by
    obtain ⟨q, hq⟩ := hl.runs.inv.queue
    have hout := (List.append_eq_nil_iff.mp (List.append_eq_nil_iff.mp hq.beats).2).1
    have hvalid : x.state.sgdmaWr.out.outValidReg = false := by
      by_contra hv
      rw [Bool.not_eq_false] at hv
      simp [SgWrSystem.engine, hv] at hout
    simp [SgWrSystem.sent, SgWrState.txWrReqTlpAccept, hvalid]
  have hruns := hl.runs.step (i := i) hc.width (by omega) hlen hstart
  have haccepted := hl.runs.accepted (i := i) hc.width
  have hemitted := SgWrSystem.emitted_step (x := x) (i := i)
  rw [htaken, hsent] at hruns
  rw [htaken, List.append_nil] at haccepted
  rw [hsent, List.append_nil] at hemitted
  refine ⟨?_, ?_, ?_, ?_, ?_, hl.ne_zero, ?_, hruns, h.frame.pop hlegal (by simp [h.state]) h.rden, x.accepted,
    x.emitted, h.written, ?_, ?_⟩
  · simp [SgWrState.sgdmaNext, h.state, h.rden]
  · simp [SgWrState.sgdmaNext, h.state, h.rden]
  · simp [SgWrState.sgdmaNext, h.state, h.rden, hdout]
  · simp [SgWrState.sgdmaNext, h.state, h.rden, h.count]
  · rw [List.length_nil]
    omega
  · show (x.state.sgdmaWr.wrNext (x.state.engineInput i)).descWrReqStartReg = false
    rw [WrState.wrNext_startReg]
    exact hstart
  · rw [haccepted, List.append_nil]
  · rw [hemitted, List.append_nil]

lemma wrBeats_eq_beats (hc : c.Supported) (e : SgEntry) : wrBeats c.wr e.length = e.beats := by
  rw [wrBeats_eq hc.width, Chunks.count, SgEntry.beats]
  omega

lemma SgWrSystem.EngineRuns.beatsOk (hc : c.Supported) (haddr : address % mps c.wr = 0) {length : ℕ}
    (h : x.EngineRuns address length cur out) : BeatsOk c.wr address length (x.engine cur out) := by
  have hcode := hc.code
  exact h.inv.beatsOk hc.width (by omega) haddr fun b => tlpBytes_ne (.inl hcode) _

section Running

variable (hc : c.Supported) (hlist : WrListOk mem address n)
  (h : WrWriting mem address n x done e rest cur out)

include h in
lemma WrWriting.not_start : x.state.descTxWrStartInit = false := by
  simp [SgWrState.descTxWrStartInit, h.state]

include hlist h in
lemma WrWriting.entry : e.address % 4096 = 0 ∧ 1 ≤ e.length ∧ e.length ≤ 2 ^ 32 - 64 := by
  have hmem : e ∈ sgList mem address n := by simp [← h.frame.entries]
  obtain ⟨haddr, hpos⟩ := hlist.list.segment e hmem h.ne_zero
  exact ⟨haddr, hpos, hlist.length_le e hmem⟩

include hc hlist h in
lemma WrWriting.aligned : e.address % mps c.wr = 0 := by
  obtain ⟨haddr, -⟩ := h.entry hlist
  have hcode := hc.code
  have hdvd : mps c.wr ∣ 4096 := pow_dvd_pow 2 (show 7 + c.wr.maxPayloadSize ≤ 12 by omega)
  rw [← Nat.mod_mod_of_dvd _ hdvd, haddr, Nat.zero_mod]

include hc hlist h in
lemma WrWriting.beatsOk : BeatsOk c.wr e.address e.length (x.engine cur out) :=
  h.runs.beatsOk hc (h.aligned hc hlist)

include hc h

lemma WrWriting.logs_next : ∃ whole sent, Written c.wr done whole sent ∧
    (x.step i).accepted = whole ++ (cur ++ x.taken i) ∧
    (x.step i).emitted = sent ++ (out ++ x.sent i) := by
  obtain ⟨whole, sent, hw, ha, he⟩ := h.written
  refine ⟨whole, sent, hw, ?_, ?_⟩
  · rw [h.runs.accepted hc.width, ha, List.append_assoc]
  · rw [SgWrSystem.emitted_step, he, List.append_assoc]

include hlist

lemma WrWriting.runs_next :
    (x.step i).EngineRuns e.address e.length (cur ++ x.taken i) (out ++ x.sent i) := by
  have hcode := hc.code
  obtain ⟨-, -, hlen⟩ := h.entry hlist
  exact h.runs.step hc.width (by omega) hlen h.not_start

lemma WrWriting.count_next : (x.state.sgdmaNext i).sgdmaStageCountReg = 64 * (out ++ x.sent i).length ∧
    (x.state.sgdmaNext i).sgdmaStateReg = .wrend ∧
    (x.state.sgdmaNext i).descTxWrLengthReg = e.length ∧
    (x.state.sgdmaNext i).dmaWrSglistFifoRdenReg = false := by
  obtain ⟨-, hpos, hlen⟩ := h.entry hlist
  have hlt := h.count_lt
  have hbytes := busBytes_eq hc.width
  have hnot : ¬e.length ≤ 64 * out.length := by omega
  have hne : ¬e.length = 0 := by omega
  cases ha : x.state.txWrReqTlpAccept i with
  | false =>
    simp [SgWrState.sgdmaNext, h.state, h.lengthReg, h.count, h.rden, hnot, ha, hne, SgWrSystem.sent]
  | true =>
    have hmod : (64 * out.length + c.wr.busBytes) % 2 ^ 32 = 64 * (out.length + 1) := by omega
    simp only [SgWrState.sgdmaNext, h.state, h.lengthReg, h.count, h.rden, hnot, ha, hmod, SgWrSystem.sent,
      List.length_append]
    simp

lemma WrWriting.step (hlegal : x.Legal mem i) (hlt : 64 * (out ++ x.sent i).length < e.length) :
    WrWriting mem address n (x.step i) done e rest (cur ++ x.taken i) (out ++ x.sent i) := by
  obtain ⟨hcount, hstate, hlength, hrd⟩ := h.count_next (i := i) hc hlist
  refine ⟨hstate, hrd, hlength, hcount, hlt, h.ne_zero, ?_, h.runs_next hc hlist,
    h.frame.step hlegal (by simp [h.state]) h.rden, h.logs_next hc⟩
  show (x.state.sgdmaWr.wrNext (x.state.engineInput i)).descWrReqStartReg = false
  rw [WrState.wrNext_startReg]
  exact h.not_start

lemma WrWriting.complete (hlegal : x.Legal mem i)
    (hall : e.length ≤ 64 * (out ++ x.sent i).length) :
    WrEnding mem address n (x.step i) (done ++ [e]) rest := by
  obtain ⟨hcount, hstate, hlength, hrd⟩ := h.count_next (i := i) hc hlist
  obtain ⟨whole, sent, hw, ha, he⟩ := h.logs_next (i := i) hc
  have hruns := h.runs_next (i := i) hc hlist
  have hcode := hc.code
  have hsent : wrBeats c.wr e.length ≤ (out ++ x.sent i).length := by
    by_contra hlt
    have := (lt_wrBeats_iff (c := c.wr) hc.width _).mp (Nat.not_le.mp hlt)
    omega
  have halign := h.aligned hc hlist
  have hok := hruns.beatsOk hc halign
  have hle := hok.emitted_le
  have htaken := hok.taken_le
  simp only [SgWrSystem.engine] at hle htaken
  have hquiet : (x.step i).state.sgdmaWr.Quiet := by
    apply hruns.inv.quiet hsent
    show (x.state.sgdmaWr.wrNext (x.state.engineInput i)).descWrReqStartReg = false
    rw [WrState.wrNext_startReg]
    exact h.not_start
  have hpackets : Packets c.wr e.address e.length (cur ++ x.taken i) (out ++ x.sent i) :=
    packets_of_beats hc.width (by omega) halign (by omega) (by omega) hok.beat
  refine ⟨hstate, ?_, hrd, ⟨hquiet, hruns.gate.idle hquiet.idle⟩, h.frame.step hlegal (by simp [h.state]) h.rden,
    ?_⟩
  · rw [SgWrSystem.step_reg, hcount, hlength]
    exact hall
  · rw [ha, he]
    refine hw.snoc h.ne_zero ⟨?_, hpackets⟩
    rw [← wrBeats_eq_beats hc]
    show (cur ++ x.taken i).length = _
    omega

end Running

end Writing

end FpgaPcie
