import FpgaPcie.Rtl.DmaRdReassembly
import FpgaPcie.Rtl.SgdmaRd

/-!
# The phases of a list transfer

A transfer goes through loading the descriptor of the list, receiving the list, waiting for the
start of the transfer, and then for each entry through choosing it, popping it and streaming
its segment (or skipping it). Each phase states what the registers, the list FIFO, the
engine and the logs hold, and one clock edge leads from a phase to itself or to the next one.
-/

namespace FpgaPcie

variable {c : RdConfig} {mem : HostMem} {address n : ℕ} {x : SgRdSystem c} {i : SgRdInput c}
  {cur : List (AxisBeat c.busBytes)}

namespace SgRdSystem

@[simp] lemma step_reg : (x.step i).state.reg = x.state.sgdmaRdNext i := rfl

/-! ### The engine -/

/-- The engine is between two descriptors. -/
structure EngineQuiet (x : SgRdSystem c) : Prop where
  quiet : x.state.sgdmaListRd.Quiet
  owed : ∀ tag, x.owed tag = []

/-- The beat that leaves the engine in this cycle. -/
def taken (x : SgRdSystem c) (i : SgRdInput c) : List (AxisBeat c.busBytes) :=
  if x.state.cpldRxAxisAccept i then [x.state.sgdmaListRd.out.outReg] else []

lemma engine_step : (x.step i).engine (cur ++ x.taken i) =
    (x.engine cur).step (x.state.engineInput i) := rfl

lemma launches_step (h : x.state.reg.descRdReqSglistStartReg = false) :
    (x.step i).launches = x.launches := by
  have ht : x.state.sgdmaListRd.req.take (x.state.engineInput i) = false := take_eq_false h
  simp [step, ht]

lemma accepted_step (h : x.state.reg.sgdmaRdStateReg ≠ .endl) :
    (x.step i).accepted = x.accepted := by
  simp [step, SgRdState.mAxisTlpTvalid, h]

lemma accepted_step_endl (h : x.state.reg.sgdmaRdStateReg = .endl) :
    (x.step i).accepted = x.accepted ++ x.taken i := by
  simp [step, taken, SgRdState.mAxisTlpTvalid, SgRdState.mAxisTlp, SgRdState.cpldRxAxisAccept,
    SgRdState.cpldRxAxisTready, h]

namespace EngineQuiet

lemma taken (h : x.EngineQuiet) : x.taken i = [] := by
  simp [SgRdSystem.taken, SgRdState.cpldRxAxisAccept, h.quiet.outValid]

lemma owed_step (h : x.EngineQuiet) (tag : ℕ) : (x.step i).owed tag = [] := by
  have ha := h.quiet.accept (i := x.state.engineInput i)
  simp [SgRdSystem.step, RdSystem.owedNext, engine, h.owed, ha]

lemma accepted (h : x.EngineQuiet) : (x.step i).accepted = x.accepted := by
  by_cases hs : x.state.reg.sgdmaRdStateReg = .endl
  · rw [accepted_step_endl hs, h.taken, List.append_nil]
  · exact accepted_step hs

lemma step (h : x.EngineQuiet) (hstart : x.state.reg.descRdReqSglistStartReg = false) :
    (x.step i).EngineQuiet :=
  ⟨h.quiet.step hstart, h.owed_step⟩

lemma launch (h : x.EngineQuiet) (hc : c.Wide512) (mem : HostMem)
    (hstart : x.state.reg.descRdReqSglistStartReg = true)
    (haddr : x.state.reg.descRdReqSglistAddressReg < 2 ^ 64)
    (hpos : 0 < x.state.reg.descRdReqSglistLengthReg)
    (hlen : x.state.reg.descRdReqSglistLengthReg < 2 ^ 32) :
    RdInv mem x.state.reg.descRdReqSglistAddressReg x.state.reg.descRdReqSglistLengthReg
      ((x.step i).engine []) .start ∧
    (x.step i).launches = x.launches ++
      [(x.state.reg.descRdReqSglistAddressReg, x.state.reg.descRdReqSglistLengthReg)] := by
  have ht : x.state.sgdmaListRd.req.take (x.state.engineInput i) = true := h.quiet.take hstart
  have hfresh : x.engine [] = RdSystem.fresh x.state.sgdmaListRd := by
    rw [engine, RdSystem.fresh, funext h.owed]
  have hinit := RdInv.init (i := x.state.engineInput i) mem hc haddr hpos hlen h.quiet hstart
  rw [← hfresh, ← engine_step, h.taken] at hinit
  exact ⟨hinit, by simp [SgRdSystem.step, ht]⟩

end EngineQuiet

/-! ### The list FIFO -/

/-- The entries that have been received and not popped: the list FIFO and the beat on its
write port. -/
def listed (x : SgRdSystem c) : List SgEntry :=
  x.state.dmaRdSglistFifo.words ++
    if x.state.reg.dmaRdSglistFifoWrEnReg then x.state.reg.dmaRdSglistFifoWrDataReg.entries else []

lemma sglistFifoEntries_eq (hc : c.Wide512) :
    sglistFifoEntries c.busBytes sglistFifoDepth = 2048 := by
  simp [sglistFifoEntries, hc.busBytes, sglistFifoDepth]

lemma not_alfull (hc : c.Wide512) (h : x.listed.length ≤ 512) :
    x.state.dmaRdSglistFifo.alfull = false := by
  have hw : x.state.dmaRdSglistFifo.words.length ≤ x.listed.length := by
    simp [listed]
  have hcap := sglistFifoEntries_eq hc
  have hb : 2 * (c.busBytes / 16) = 8 := by rw [hc.busBytes]
  exact decide_eq_false (by omega)

/-- After a clock edge the FIFO holds what was listed, less the popped entry. -/
lemma fifo_step (hc : c.Wide512) (h : x.listed.length ≤ 512) :
    (x.step i).state.dmaRdSglistFifo.words =
      (if x.state.reg.dmaRdSglistFifoRdEnReg then x.state.dmaRdSglistFifo.words.tail
        else x.state.dmaRdSglistFifo.words) ++
      if x.state.reg.dmaRdSglistFifoWrEnReg then x.state.reg.dmaRdSglistFifoWrDataReg.entries
        else [] := by
  apply BoundedQueue.clock_words
  have hcap := sglistFifoEntries_eq hc
  rw [← List.length_append]
  exact h.trans (by omega)

lemma listed_step (hc : c.Wide512) (h : x.listed.length ≤ 512)
    (hrd : x.state.reg.dmaRdSglistFifoRdEnReg = false)
    (hwr : (x.state.sgdmaRdNext i).dmaRdSglistFifoWrEnReg = false) :
    (x.step i).listed = x.listed := by
  have hf := fifo_step (i := i) hc h
  simp only [hrd, Bool.false_eq_true, if_false] at hf
  rw [listed, hf, step_reg, hwr, if_neg Bool.false_ne_true, List.append_nil]
  rfl

end SgRdSystem

/-! ### What has been transferred -/

/-- The beats of one segment. -/
structure SegmentOk (mem : HostMem) (e : SgEntry) (beats : List (AxisBeat c.busBytes)) : Prop where
  ok : StreamOk mem e.address e.length beats
  length_eq : beats.length = e.beats

/-- The descriptors of a list and of the segments of `entries`. -/
def descriptors (address n : ℕ) (entries : List SgEntry) : List (ℕ × ℕ) :=
  (address, 16 * n) :: (segments entries).map fun e => (e.address, e.length)

/-- The beats are the segments of `entries`, one after the other, each one whole. -/
def Streams (mem : HostMem) (entries : List SgEntry) (beats : List (AxisBeat c.busBytes)) : Prop :=
  ∃ parts, List.Forall₂ (SegmentOk mem) (segments entries) parts ∧ beats = parts.flatten

lemma descriptors_snoc {entries : List SgEntry} {e : SgEntry} (h : e ≠ SgEntry.zero) :
    descriptors address n (entries ++ [e]) =
      descriptors address n entries ++ [(e.address, e.length)] := by
  simp [descriptors, segments_append, segments_singleton h]

lemma descriptors_snoc_zero (entries : List SgEntry) :
    descriptors address n (entries ++ [SgEntry.zero]) = descriptors address n entries := by
  simp [descriptors, segments_append, segments_zero]

lemma Streams.nil (mem : HostMem) : Streams mem [] ([] : List (AxisBeat c.busBytes)) :=
  ⟨[], List.Forall₂.nil, rfl⟩

lemma Streams.snoc {entries : List SgEntry} {e : SgEntry} {beats part : List (AxisBeat c.busBytes)}
    (h : Streams mem entries beats) (hz : e ≠ SgEntry.zero) (hp : SegmentOk mem e part) :
    Streams mem (entries ++ [e]) (beats ++ part) := by
  obtain ⟨parts, hparts, rfl⟩ := h
  refine ⟨parts ++ [part], ?_, by simp⟩
  rw [segments_append, segments_singleton hz]
  exact List.rel_append hparts (List.Forall₂.cons hp List.Forall₂.nil)

lemma Streams.snoc_zero {entries : List SgEntry} {beats : List (AxisBeat c.busBytes)}
    (h : Streams mem entries beats) : Streams mem (entries ++ [SgEntry.zero]) beats := by
  unfold Streams
  rw [segments_append, segments_zero, List.append_nil]
  exact h

/-! ### The phases -/

section Phases

variable (mem : HostMem) (address n : ℕ)

/-- The descriptor of the list is in the registers. -/
structure Loading (x : SgRdSystem c) : Prop where
  state : x.state.reg.sgdmaRdStateReg = .rdlist
  startReg : x.state.reg.descRdReqSglistStartReg = true
  addressReg : x.state.reg.descRdReqSglistAddressReg = address
  lengthReg : x.state.reg.descRdReqSglistLengthReg = 16 * n
  rdEn : x.state.reg.dmaRdSglistFifoRdEnReg = false
  engine : x.EngineQuiet
  listed : x.listed = []
  launches : x.launches = []
  accepted : x.accepted = []
  irqSeen : x.irqSeen = false

/-- The list is coming in; `cur` are its beats so far. -/
structure Receiving (x : SgRdSystem c) (cur : List (AxisBeat c.busBytes)) (g : RdProgress) :
    Prop where
  state : x.state.reg.sgdmaRdStateReg = .rdrecv
  startReg : x.state.reg.descRdReqSglistStartReg = false
  rdEn : x.state.reg.dmaRdSglistFifoRdEnReg = false
  inv : RdInv mem address (16 * n) (x.engine cur) g
  cur_lt : cur.length < sgBeats n
  listed : x.listed = (List.range (4 * cur.length)).map (sgEntry mem address n)
  launches : x.launches = descriptors address n []
  accepted : x.accepted = []
  irqSeen : x.irqSeen = false

/-- The entries `done` have been transferred, the entries `rest` are in the list FIFO and the
engine is between two descriptors. -/
structure Resting (x : SgRdSystem c) (done rest : List SgEntry) : Prop where
  startReg : x.state.reg.descRdReqSglistStartReg = false
  rdEn : x.state.reg.dmaRdSglistFifoRdEnReg = false
  engine : x.EngineQuiet
  entries : done ++ rest = sgList mem address n
  listed : x.listed = rest
  launches : x.launches = descriptors address n done
  accepted : Streams mem done x.accepted

/-- The list is complete and the transfer is not started. -/
structure Waiting (x : SgRdSystem c) : Prop where
  state : x.state.reg.sgdmaRdStateReg = .rdrecv
  sgdmaStartReg : x.state.reg.descRdReqSgdmaStartReg = false
  resting : Resting mem address n x [] (sgList mem address n)
  irqSeen : x.irqSeen = true

/-- The next entry is about to be chosen. -/
structure Choosing (x : SgRdSystem c) (done rest : List SgEntry) : Prop where
  state : x.state.reg.sgdmaRdStateReg = .rdstart
  wrEn : x.state.reg.dmaRdSglistFifoWrEnReg = false
  resting : Resting mem address n x done rest

/-- The entry `e` is in the registers and leaves the list FIFO. -/
structure Popping (x : SgRdSystem c) (done : List SgEntry) (e : SgEntry) (rest : List SgEntry) :
    Prop where
  state : x.state.reg.sgdmaRdStateReg = .rdstart
  startReg : x.state.reg.descRdReqSglistStartReg = decide (e ≠ SgEntry.zero)
  addressReg : x.state.reg.descRdReqSglistAddressReg = e.address
  lengthReg : x.state.reg.descRdReqSglistLengthReg = e.length
  rdEn : x.state.reg.dmaRdSglistFifoRdEnReg = true
  wrEn : x.state.reg.dmaRdSglistFifoWrEnReg = false
  engine : x.EngineQuiet
  entries : done ++ e :: rest = sgList mem address n
  fifo : x.state.dmaRdSglistFifo.words = e :: rest
  launches : x.launches = descriptors address n done
  accepted : Streams mem done x.accepted

/-- A padding entry has been popped. -/
structure Skipping (x : SgRdSystem c) (done rest : List SgEntry) : Prop where
  state : x.state.reg.sgdmaRdStateReg = .endl
  wrEn : x.state.reg.dmaRdSglistFifoWrEnReg = false
  lengthReg : x.state.reg.descRdReqSglistLengthReg = 0
  resting : Resting mem address n x done rest

/-- The segment of `e` is on its way; `cur` are its beats so far. -/
structure Streaming (x : SgRdSystem c) (done : List SgEntry) (e : SgEntry) (rest : List SgEntry)
    (cur : List (AxisBeat c.busBytes)) (g : RdProgress) : Prop where
  state : x.state.reg.sgdmaRdStateReg = .endl
  startReg : x.state.reg.descRdReqSglistStartReg = false
  lengthReg : x.state.reg.descRdReqSglistLengthReg = e.length
  rdEn : x.state.reg.dmaRdSglistFifoRdEnReg = false
  wrEn : x.state.reg.dmaRdSglistFifoWrEnReg = false
  ne_zero : e ≠ SgEntry.zero
  inv : RdInv mem e.address e.length (x.engine cur) g
  cur_lt : cur.length < e.beats
  entries : done ++ e :: rest = sgList mem address n
  listed : x.listed = rest
  launches : x.launches = descriptors address n (done ++ [e])
  accepted : ∃ beats, Streams mem done beats ∧ x.accepted = beats ++ cur

/-- All entries have been transferred. -/
structure Finished (x : SgRdSystem c) : Prop where
  state : x.state.reg.sgdmaRdStateReg = .idle
  wrEn : x.state.reg.dmaRdSglistFifoWrEnReg = false
  resting : Resting mem address n x (sgList mem address n) []

end Phases

lemma Resting.step {done rest : List SgEntry} (hc : c.Wide512) (hlist : ListOk mem address n)
    (h : Resting mem address n x done rest)
    (hstart : (x.state.sgdmaRdNext i).descRdReqSglistStartReg = false)
    (hrd : (x.state.sgdmaRdNext i).dmaRdSglistFifoRdEnReg = false)
    (hwr : (x.state.sgdmaRdNext i).dmaRdSglistFifoWrEnReg = false) :
    Resting mem address n (x.step i) done rest := by
  have hlen : x.listed.length ≤ 512 := by
    rw [h.listed]
    exact hlist.rest_le h.entries
  refine ⟨hstart, hrd, h.engine.step h.startReg, h.entries, ?_, ?_, ?_⟩
  · rw [SgRdSystem.listed_step hc hlen h.rdEn hwr]
    exact h.listed
  · rw [SgRdSystem.launches_step h.startReg]
    exact h.launches
  · rw [h.engine.accepted]
    exact h.accepted

/-! ### Clock edges -/

section Running

variable {a l : ℕ} {g : RdProgress}

/-- The counters of the engine after this cycle. -/
def SgRdSystem.nextProgress (x : SgRdSystem c) (i : SgRdInput c)
    (cur : List (AxisBeat c.busBytes)) (g : RdProgress) : RdProgress :=
  g.next (x.engine cur) (x.state.engineInput i)

lemma SgRdSystem.running_step (hc : c.Wide512) (ha : a % 4096 = 0) (hpos : 1 ≤ l)
    (hlen : l < 2 ^ 32) (hhost : (x.engine []).Legal mem (x.state.engineInput i))
    (hstart : x.state.reg.descRdReqSglistStartReg = false) (h : RdInv mem a l (x.engine cur) g) :
    RdInv mem a l ((x.step i).engine (cur ++ x.taken i)) (x.nextProgress i cur g) := by
  have ha4 : a % 4 = 0 := by omega
  have hlegal : (x.engine cur).Legal mem (x.state.engineInput i) := ⟨hhost.ready, hhost.answers⟩
  exact h.step hc ha4 hpos hlen hstart hlegal

lemma RdInv.taken_ok {beat : AxisBeat c.busBytes}
    (h : RdInv mem a l ((x.step i).engine (cur ++ [beat])) g) :
    BeatOk mem a l cur.length beat := by
  apply h.delivered_ok
  exact List.getElem?_concat_length

lemma RdInv.engineQuiet (hc : c.Wide512) (h : RdInv mem a l (x.engine cur) g)
    (hall : (l + 63) / 64 ≤ cur.length) : x.EngineQuiet := by
  obtain ⟨hq, ho⟩ := h.quiet_of_delivered hc hall
  exact ⟨hq, ho⟩

end Running

lemma Loading.step (hc : c.Wide512) (hlist : ListOk mem address n) (h : Loading address n x) :
    Receiving mem address n (x.step i) [] .start := by
  have hn := hlist.pos
  have hn' := hlist.le
  have haddr := hlist.address_lt
  obtain ⟨hinv, hlaunch⟩ := h.engine.launch (i := i) hc mem h.startReg
    (by rw [h.addressReg]; exact haddr) (by rw [h.lengthReg]; omega) (by rw [h.lengthReg]; omega)
  rw [h.addressReg, h.lengthReg] at hinv hlaunch
  refine ⟨?_, ?_, ?_, hinv, ?_, ?_, ?_, ?_, ?_⟩
  · simp [SgRdState.sgdmaRdNext, h.state, h.startReg]
  · simp [SgRdState.sgdmaRdNext, h.state, h.startReg]
  · simp [SgRdState.sgdmaRdNext, h.state, h.startReg]
  · simp only [List.length_nil, sgBeats]
    omega
  · have hf := SgRdSystem.listed_step (i := i) hc (by rw [h.listed]; simp) h.rdEn
      (by simp [SgRdState.sgdmaRdNext, h.state, h.startReg])
    rw [hf, h.listed]
    rfl
  · rw [hlaunch, h.launches]
    rfl
  · rw [h.engine.accepted, h.accepted]
  · simp [SgRdSystem.step, SgRdState.sgdmaRdNext, h.state, h.startReg, h.irqSeen]

lemma Receiving.listed_le {g : RdProgress} (hlist : ListOk mem address n)
    (h : Receiving mem address n x cur g) : x.listed.length ≤ 512 := by
  have hle := hlist.sgBeats_le
  have hlt := h.cur_lt
  rw [h.listed, List.length_map, List.length_range]
  omega

lemma Receiving.listed_next {g : RdProgress} (hc : c.Wide512) (hlist : ListOk mem address n)
    (hhost : (x.engine []).Legal mem (x.state.engineInput i)) (h : Receiving mem address n x cur g) :
    (x.step i).listed =
      (List.range (4 * (cur ++ x.taken i).length)).map (sgEntry mem address n) := by
  have hle := h.listed_le hlist
  have hf := SgRdSystem.fifo_step (i := i) hc hle
  simp only [h.rdEn, Bool.false_eq_true, if_false] at hf
  rw [SgRdSystem.listed, hf, ← SgRdSystem.listed, h.listed]
  have hinv := SgRdSystem.running_step hc hlist.aligned (by have := hlist.pos; omega)
    (by have := hlist.le; omega) hhost h.startReg h.inv
  by_cases ha : x.state.cpldRxAxisAccept i = true
  · rw [SgRdSystem.taken, if_pos ha] at hinv ⊢
    have hbeat := hinv.taken_ok
    have hwr : (x.state.sgdmaRdNext i).dmaRdSglistFifoWrEnReg = true := by
      simp [SgRdState.sgdmaRdNext, h.state, ha]
    have hdata : (x.state.sgdmaRdNext i).dmaRdSglistFifoWrDataReg =
        x.state.sgdmaListRd.out.outReg.kept := by
      simp [SgRdState.sgdmaRdNext, h.state]
    rw [SgRdSystem.step_reg, hwr, hdata, if_pos rfl, hbeat.entries hc.offsetWidth, List.length_append,
      List.length_singleton, Nat.mul_succ, List.range_add, List.map_append, List.map_map]
    rfl
  · have hwr : (x.state.sgdmaRdNext i).dmaRdSglistFifoWrEnReg = false := by
      simp [SgRdState.sgdmaRdNext, h.state, ha]
    rw [SgRdSystem.step_reg, hwr, SgRdSystem.taken, if_neg ha, if_neg Bool.false_ne_true,
      List.append_nil, List.append_nil]

section Receiving

variable {g : RdProgress}

lemma Receiving.launches_next (h : Receiving mem address n x cur g) :
    (x.step i).launches = descriptors address n [] := by
  rw [SgRdSystem.launches_step h.startReg]
  exact h.launches

lemma Receiving.accepted_next (h : Receiving mem address n x cur g) : (x.step i).accepted = [] := by
  rw [SgRdSystem.accepted_step (by simp [h.state])]
  exact h.accepted

lemma Receiving.not_started (hlegal : x.Legal mem i) (h : Receiving mem address n x cur g) :
    i.descRdReqSgdmaStart = false := by
  by_contra hs
  have hseen := hlegal.sgdmaStart (by simpa using hs)
  rw [h.irqSeen] at hseen
  cases hseen

variable (hc : c.Wide512) (hlist : ListOk mem address n)
  (hhost : (x.engine []).Legal mem (x.state.engineInput i)) (h : Receiving mem address n x cur g)
include hc hlist hhost h

lemma Receiving.inv_next : RdInv mem address (16 * n) ((x.step i).engine (cur ++ x.taken i))
    (x.nextProgress i cur g) := by
  have hpos := hlist.pos
  have hle := hlist.le
  exact SgRdSystem.running_step hc hlist.aligned (by omega) (by omega) hhost h.startReg h.inv

lemma Receiving.irqSeen_next :
    (x.step i).irqSeen = decide (sgBeats n ≤ (cur ++ x.taken i).length) := by
  have hlt := h.cur_lt
  have hinv := h.inv_next hc hlist hhost
  by_cases ha : x.state.cpldRxAxisAccept i = true
  · rw [SgRdSystem.taken, if_pos ha] at hinv ⊢
    have hlast := hinv.taken_ok.tlast
    simp only [SgRdSystem.step, SgRdState.sgdmaRdNext, h.state, h.irqSeen, ha, hlast, List.length_append,
      List.length_singleton, Bool.false_or, Bool.true_and, decide_eq_decide]
    unfold sgBeats at hlt ⊢
    omega
  · simp only [SgRdSystem.step, SgRdState.sgdmaRdNext, h.state, h.irqSeen, ha, SgRdSystem.taken]
    simp [hlt]

/-- Before its last beat the list keeps coming in, if the transfer is not started. -/
lemma Receiving.step (hlow : (i.descRdReqSgdmaStart && !x.state.reg.descRdReqSgdmaStartReg) = false)
    (hlt : (cur ++ x.taken i).length < sgBeats n) :
    Receiving mem address n (x.step i) (cur ++ x.taken i) (x.nextProgress i cur g) := by
  have hirq := h.irqSeen_next hc hlist hhost
  refine ⟨?_, ?_, ?_, h.inv_next hc hlist hhost, hlt, h.listed_next hc hlist hhost,
    h.launches_next, h.accepted_next, ?_⟩
  · simp [SgRdState.sgdmaRdNext, h.state, hlow]
  · simp [SgRdState.sgdmaRdNext, h.state, h.startReg]
  · simp [SgRdState.sgdmaRdNext, h.state]
  · rw [hirq]
    exact decide_eq_false (by omega)

lemma Receiving.rest (hall : sgBeats n ≤ (cur ++ x.taken i).length) :
    Resting mem address n (x.step i) [] (sgList mem address n) := by
  have hinv := h.inv_next hc hlist hhost
  have hcount : (cur ++ x.taken i).length = sgBeats n := le_antisymm hinv.delivered_le hall
  have hlisted := h.listed_next hc hlist hhost
  rw [hcount] at hlisted
  refine ⟨?_, ?_, hinv.engineQuiet hc hall, rfl, hlisted, h.launches_next, ?_⟩
  · simp [SgRdState.sgdmaRdNext, h.state, h.startReg]
  · simp [SgRdState.sgdmaRdNext, h.state]
  · rw [h.accepted_next]
    exact Streams.nil mem

lemma Receiving.complete (hs : i.descRdReqSgdmaStart = false)
    (hall : sgBeats n ≤ (cur ++ x.taken i).length) : Waiting mem address n (x.step i) := by
  have hirq := h.irqSeen_next hc hlist hhost
  refine ⟨?_, ?_, h.rest hc hlist hhost hall, ?_⟩
  · simp [SgRdState.sgdmaRdNext, h.state, hs]
  · simp [SgRdState.sgdmaRdNext, h.state, hs]
  · rw [hirq]
    exact decide_eq_true hall

end Receiving

section Resting

variable {done rest : List SgEntry} {e : SgEntry}

lemma Choosing.fifo (h : Choosing mem address n x done rest) :
    x.state.dmaRdSglistFifo.words = rest := by
  have hl := h.resting.listed
  rw [SgRdSystem.listed, h.wrEn, if_neg Bool.false_ne_true, List.append_nil] at hl
  exact hl

variable (hc : c.Wide512) (hlist : ListOk mem address n)
include hc hlist

lemma Resting.wait (h : Resting mem address n x done rest)
    (hs : x.state.reg.sgdmaRdStateReg = .rdrecv) : Resting mem address n (x.step i) done rest := by
  have ha : x.state.cpldRxAxisAccept i = false := by
    simp [SgRdState.cpldRxAxisAccept, h.engine.quiet.outValid]
  apply h.step hc hlist
  · simp [SgRdState.sgdmaRdNext, hs, h.startReg]
  · simp [SgRdState.sgdmaRdNext, hs]
  · simp [SgRdState.sgdmaRdNext, hs, ha]

lemma Waiting.step (h : Waiting mem address n x) (hs : i.descRdReqSgdmaStart = false) :
    Waiting mem address n (x.step i) := by
  refine ⟨?_, ?_, h.resting.wait hc hlist h.state, ?_⟩
  · simp [SgRdState.sgdmaRdNext, h.state, hs]
  · simp [SgRdState.sgdmaRdNext, h.state, hs]
  · simp [SgRdSystem.step, h.irqSeen]

lemma Waiting.started (h : Waiting mem address n x) (hs : i.descRdReqSgdmaStart = true) :
    Choosing mem address n (x.step i) [] (sgList mem address n) := by
  have ha : x.state.cpldRxAxisAccept i = false := by
    simp [SgRdState.cpldRxAxisAccept, h.resting.engine.quiet.outValid]
  refine ⟨?_, ?_, h.resting.wait hc hlist h.state⟩
  · simp [SgRdState.sgdmaRdNext, h.state, hs, h.sgdmaStartReg]
  · simp [SgRdState.sgdmaRdNext, h.state, ha]

lemma Choosing.finish (h : Choosing mem address n x done []) : Finished mem address n (x.step i) := by
  have hf := h.fifo
  have hdone := h.resting.entries
  rw [List.append_nil] at hdone
  subst hdone
  refine ⟨?_, ?_, h.resting.step hc hlist ?_ ?_ ?_⟩
  all_goals simp [SgRdState.sgdmaRdNext, h.state, h.resting.rdEn, hf, h.wrEn, h.resting.startReg]

/-- With an entry in the list FIFO the next one is read, also while the last beat is on the write port. -/
lemma Resting.pop (h : Resting mem address n x done (e :: rest))
    (hs : x.state.reg.sgdmaRdStateReg = .rdstart) (hne : x.state.dmaRdSglistFifo.words ≠ []) :
    Popping mem address n (x.step i) done e rest := by
  have hlisted := h.listed
  have hlen : x.listed.length ≤ 512 := by
    rw [hlisted]
    exact hlist.rest_le h.entries
  have hfifo := SgRdSystem.fifo_step (i := i) hc hlen
  rw [h.rdEn, if_neg Bool.false_ne_true, ← SgRdSystem.listed, hlisted] at hfifo
  obtain ⟨e', words, hw⟩ := List.exists_cons_of_ne_nil hne
  obtain rfl : e' = e := by
    rw [SgRdSystem.listed, hw, List.cons_append] at hlisted
    exact (List.cons.inj hlisted).1
  refine ⟨?_, ?_, ?_, ?_, ?_, ?_, h.engine.step h.startReg, h.entries, hfifo, ?_, ?_⟩
  · simp [SgRdState.sgdmaRdNext, hs, h.rdEn, hw]
  · simp [SgRdState.sgdmaRdNext, hs, h.rdEn, hw]
  · simp [SgRdState.sgdmaRdNext, hs, h.rdEn, hw]
  · simp [SgRdState.sgdmaRdNext, hs, h.rdEn, hw]
  · simp [SgRdState.sgdmaRdNext, hs, h.rdEn, hw]
  · simp [SgRdState.sgdmaRdNext, hs, h.rdEn, hw]
  · rw [SgRdSystem.launches_step h.startReg]
    exact h.launches
  · rw [h.engine.accepted]
    exact h.accepted

lemma Choosing.pop (h : Choosing mem address n x done (e :: rest)) :
    Popping mem address n (x.step i) done e rest := by
  apply h.resting.pop hc hlist h.state
  rw [h.fifo]
  exact List.cons_ne_nil e rest

lemma Popping.listed_next (h : Popping mem address n x done e rest) : (x.step i).listed = rest := by
  have hlen : x.listed.length ≤ 512 := by
    rw [SgRdSystem.listed, h.fifo, h.wrEn, if_neg Bool.false_ne_true, List.append_nil]
    exact hlist.rest_le h.entries
  have hwr : (x.state.sgdmaRdNext i).dmaRdSglistFifoWrEnReg = false := by
    simp [SgRdState.sgdmaRdNext, h.state, h.rdEn]
  rw [SgRdSystem.listed, SgRdSystem.fifo_step hc hlen, SgRdSystem.step_reg, hwr, h.rdEn, h.wrEn, h.fifo]
  simp

lemma Popping.skip (h : Popping mem address n x done SgEntry.zero rest) :
    Skipping mem address n (x.step i) (done ++ [SgEntry.zero]) rest := by
  have hstart : x.state.reg.descRdReqSglistStartReg = false := by
    rw [h.startReg]
    simp
  have he := h.entries
  rw [List.append_cons] at he
  refine ⟨?_, ?_, ?_, ⟨?_, ?_, h.engine.step hstart, he, h.listed_next hc hlist, ?_, ?_⟩⟩
  · simp [SgRdState.sgdmaRdNext, h.state, h.rdEn]
  · simp [SgRdState.sgdmaRdNext, h.state, h.rdEn]
  · simp [SgRdState.sgdmaRdNext, h.state, h.rdEn, h.lengthReg]
  · simp [SgRdState.sgdmaRdNext, h.state, h.rdEn]
  · simp [SgRdState.sgdmaRdNext, h.state, h.rdEn]
  · rw [SgRdSystem.launches_step hstart, h.launches, descriptors_snoc_zero]
  · rw [h.engine.accepted]
    exact h.accepted.snoc_zero

lemma Popping.launch (hz : e ≠ SgEntry.zero) (h : Popping mem address n x done e rest) :
    Streaming mem address n (x.step i) done e rest [] .start := by
  obtain ⟨-, hpos⟩ := hlist.segment e (by simp [← h.entries]) hz
  have hstart : x.state.reg.descRdReqSglistStartReg = true := by
    rw [h.startReg]
    simp [hz]
  obtain ⟨hinv, hlaunch⟩ := h.engine.launch (i := i) hc mem hstart
    (by rw [h.addressReg]; exact e.address_lt) (by rw [h.lengthReg]; omega)
    (by rw [h.lengthReg]; exact e.length_lt)
  rw [h.addressReg, h.lengthReg] at hinv hlaunch
  refine ⟨?_, ?_, ?_, ?_, ?_, hz, hinv, ?_, h.entries, h.listed_next hc hlist, ?_, x.accepted, h.accepted,
    ?_⟩
  · simp [SgRdState.sgdmaRdNext, h.state, h.rdEn]
  · simp [SgRdState.sgdmaRdNext, h.state, h.rdEn]
  · simp [SgRdState.sgdmaRdNext, h.state, h.rdEn, h.lengthReg]
  · simp [SgRdState.sgdmaRdNext, h.state, h.rdEn]
  · simp [SgRdState.sgdmaRdNext, h.state, h.rdEn]
  · rw [List.length_nil, SgEntry.beats]
    omega
  · rw [hlaunch, h.launches, descriptors_snoc hz]
  · rw [h.engine.accepted, List.append_nil]

lemma Skipping.step (h : Skipping mem address n x done rest) :
    Choosing mem address n (x.step i) done rest := by
  refine ⟨?_, ?_, h.resting.step hc hlist ?_ ?_ ?_⟩
  all_goals simp [SgRdState.sgdmaRdNext, h.state, h.lengthReg, h.resting.startReg]

lemma Finished.step (hs : i.descRdReqSglistStart = true → x.state.reg.descRdReqSglistStartDReg = true)
    (h : Finished mem address n x) : Finished mem address n (x.step i) := by
  have hrise : (i.descRdReqSglistStart && !x.state.reg.descRdReqSglistStartDReg) = false := by
    cases hi : i.descRdReqSglistStart with
    | false => rfl
    | true => rw [hs hi]; rfl
  refine ⟨?_, ?_, h.resting.step hc hlist ?_ ?_ ?_⟩
  all_goals simp [SgRdState.sgdmaRdNext, h.state, hrise, h.resting.startReg]

end Resting

section Streaming

variable {done rest : List SgEntry} {e : SgEntry} {g : RdProgress}

lemma Streaming.listed_next (hc : c.Wide512) (hlist : ListOk mem address n)
    (h : Streaming mem address n x done e rest cur g) : (x.step i).listed = rest := by
  have hlen : x.listed.length ≤ 512 := by
    have he := h.entries
    rw [List.append_cons] at he
    rw [h.listed]
    exact hlist.rest_le he
  rw [SgRdSystem.listed_step hc hlen h.rdEn (by simp [SgRdState.sgdmaRdNext, h.state])]
  exact h.listed

lemma Streaming.accepted_next (h : Streaming mem address n x done e rest cur g) :
    ∃ beats, Streams mem done beats ∧ (x.step i).accepted = beats ++ (cur ++ x.taken i) := by
  obtain ⟨beats, hb, ha⟩ := h.accepted
  refine ⟨beats, hb, ?_⟩
  rw [SgRdSystem.accepted_step_endl h.state, ha, List.append_assoc]

variable (hc : c.Wide512) (hlist : ListOk mem address n)
  (hhost : (x.engine []).Legal mem (x.state.engineInput i))
  (h : Streaming mem address n x done e rest cur g)
include hc hlist hhost h

lemma Streaming.inv_next : RdInv mem e.address e.length ((x.step i).engine (cur ++ x.taken i))
    (x.nextProgress i cur g) := by
  obtain ⟨haddr, hpos⟩ := hlist.segment e (by simp [← h.entries]) h.ne_zero
  exact SgRdSystem.running_step hc haddr hpos e.length_lt hhost h.startReg h.inv

lemma Streaming.state_next : (x.state.sgdmaRdNext i).sgdmaRdStateReg =
    if (cur ++ x.taken i).length < e.beats then .endl else .rdstart := by
  obtain ⟨-, hpos⟩ := hlist.segment e (by simp [← h.entries]) h.ne_zero
  have hlt := h.cur_lt
  have hlen : ¬x.state.reg.descRdReqSglistLengthReg = 0 := by
    rw [h.lengthReg]
    omega
  have hinv := h.inv_next hc hlist hhost
  by_cases ha : x.state.cpldRxAxisAccept i = true
  · rw [SgRdSystem.taken, if_pos ha] at hinv ⊢
    have hlast := hinv.taken_ok.tlast
    simp only [SgRdState.sgdmaRdNext, h.state, hlen, ha, hlast, Bool.true_and, decide_eq_true_eq,
      List.length_append, List.length_singleton, if_false]
    unfold SgEntry.beats at hlt ⊢
    split_ifs <;> first | rfl | omega
  · simp [SgRdState.sgdmaRdNext, h.state, hlen, ha, SgRdSystem.taken, hlt]

lemma Streaming.step (hlt : (cur ++ x.taken i).length < e.beats) :
    Streaming mem address n (x.step i) done e rest (cur ++ x.taken i) (x.nextProgress i cur g) := by
  have hstate := h.state_next hc hlist hhost
  rw [if_pos hlt] at hstate
  refine ⟨hstate, ?_, ?_, ?_, ?_, h.ne_zero, h.inv_next hc hlist hhost, hlt, h.entries,
    h.listed_next hc hlist, ?_, h.accepted_next⟩
  · simp [SgRdState.sgdmaRdNext, h.state, h.startReg]
  · simp [SgRdState.sgdmaRdNext, h.state, h.lengthReg]
  · simp [SgRdState.sgdmaRdNext, h.state]
  · simp [SgRdState.sgdmaRdNext, h.state]
  · rw [SgRdSystem.launches_step h.startReg]
    exact h.launches

lemma Streaming.complete (hall : e.beats ≤ (cur ++ x.taken i).length) :
    Choosing mem address n (x.step i) (done ++ [e]) rest := by
  have hstate := h.state_next hc hlist hhost
  rw [if_neg (by omega)] at hstate
  have hinv := h.inv_next hc hlist hhost
  have hseg : SegmentOk mem e (cur ++ x.taken i) :=
    ⟨hinv.delivered_ok, le_antisymm hinv.delivered_le hall⟩
  obtain ⟨beats, hb, ha⟩ := h.accepted_next
  have he := h.entries
  rw [List.append_cons] at he
  refine ⟨hstate, ?_, ⟨?_, ?_, hinv.engineQuiet hc hall, he, h.listed_next hc hlist, ?_, ?_⟩⟩
  · simp [SgRdState.sgdmaRdNext, h.state]
  · simp [SgRdState.sgdmaRdNext, h.state, h.startReg]
  · simp [SgRdState.sgdmaRdNext, h.state]
  · rw [SgRdSystem.launches_step h.startReg]
    exact h.launches
  · rw [ha]
    exact hb.snoc h.ne_zero hseg

end Streaming

end FpgaPcie
