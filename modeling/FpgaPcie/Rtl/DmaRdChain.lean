import FpgaPcie.Lib.TaggedLog
import FpgaPcie.Rtl.DmaRdStep

/-!
# Descriptors one after the other

A run of the read engine is cut into transfers where the request FSM takes a descriptor. The
receive FSM and the output FSM look for the start on their own and in other cycles, so that
nothing but the state they are in makes them work on the same descriptor.
-/

namespace FpgaPcie

/-- A descriptor with the words that the receive FSM stored for it and the beats that the output
FSM handed to the output FIFO, each with its tag. -/
structure Transfer (c : RdConfig) where
  address : ℕ
  length : ℕ
  stored : List (ℕ × Bytes c.busBytes)
  emitted : List (ℕ × AxisBeat c.busBytes)

variable {c : RdConfig}

/-- The tags are taken in turn, from tag 0 on. -/
structure InTurn (m : ℕ) (tags : List ℕ) : Prop where
  first : ∀ t ∈ tags.head?, t = 0
  turns : tags.IsChain fun a b => b = a ∨ b = (a + 1) % m

namespace Transfer

variable (T : Transfer c)

def beats : List (AxisBeat c.busBytes) := T.emitted.map Prod.snd

def tags : List ℕ := T.emitted.map Prod.fst

def emittedWords : List (ℕ × Bytes c.busBytes) := T.emitted.map fun e => (e.1, e.2.tdata)

/-- `tkeep` and `tlast` of beat `b`. -/
def flags (b : ℕ) : (Fin c.busBytes → Bool) × Bool :=
  let last := decide (b + 1 = beatCycles c T.length)
  (fun j => !last || decide (T.length % c.busBytes = 0 ∨ j < T.length % c.busBytes), last)

/-- The beats so far have the flags of this descriptor and carry words that were stored for it: each
word at most once, the words of a tag in their order, one tag after the other. -/
structure Sound : Prop where
  flags : T.beats.map (fun beat => (beat.tkeep, beat.tlast)) <+: (List.range (beatCycles c T.length)).map T.flags
  words : ∀ tag, (TaggedLog.words tag T.emittedWords).Sublist (TaggedLog.words tag T.stored)
  tags : InTurn (2 ^ c.pcieTagWidth) T.tags

/-- All beats and all words have been output. -/
structure Complete : Prop extends Sound T where
  all : T.beats.length = beatCycles c T.length
  words_eq : ∀ tag, TaggedLog.words tag T.emittedWords = TaggedLog.words tag T.stored

end Transfer

/-- The engine with the transfers that are over, the transfer under way and the log of the beats
accepted on the stream. -/
structure RdChain (c : RdConfig) where
  engine : RdState c
  past : List (Transfer c)
  current : Transfer c
  delivered : List (AxisBeat c.busBytes)

namespace RdChain

variable (x : RdChain c) (i : RdInput c)

/-- The word that the receive FSM stores in this cycle. -/
def storedNow : List (ℕ × Bytes c.busBytes) :=
  if x.engine.recv.recvStateReg == .start && x.engine.cplAccept i then
    [(rxCplTlpHdrTag i.rxCplTlpHdr % 2 ^ c.pcieTagWidth, i.rxCplTlpData)] else []

/-- The beat that the output FSM hands to the output FIFO in this cycle. -/
def emittedNow : List (ℕ × AxisBeat c.busBytes) :=
  if x.engine.emit then [(x.engine.tag.opTagFifoRdptr, x.engine.newBeat i)] else []

/-- The transfer under way, after this cycle. -/
def advanced : Transfer c :=
  { x.current with
    stored := x.current.stored ++ x.storedNow i
    emitted := x.current.emitted ++ x.emittedNow i }

def step : RdChain c where
  engine := rdStep x.engine i
  past := if x.engine.req.take i then x.past ++ [x.advanced i] else x.past
  current := if x.engine.req.take i then ⟨i.descTxRdReqAddress, i.descTxRdReqLength, [], []⟩
    else x.advanced i
  delivered := x.delivered ++ if x.engine.out.outValidReg && i.mAxisTlpTready then
    [x.engine.out.outReg] else []

/-- The run out of reset. Before the first descriptor the transfer under way is empty. -/
def run (i : ℕ → RdInput c) : ℕ → RdChain c
  | 0 => ⟨rdReset c, [], ⟨0, 0, [], []⟩, []⟩
  | t + 1 => (run i t).step (i t)

/-- The transfers in their order, as one stream. -/
def stream : List (AxisBeat c.busBytes) := x.past.flatMap Transfer.beats ++ x.current.beats

/-- Every transfer that is over is complete, and what the stream has accepted and the output side
still holds are the transfers one after the other. -/
structure InOrder : Prop where
  past : ∀ T ∈ x.past, T.Complete
  current : x.current.Sound
  stream : ∃ q, x.engine.out.Stores outputFifoAddrWidthRd q ∧
    x.delivered ++ x.engine.out.pending q = x.stream

end RdChain

/-- The descriptor that the request FSM takes in state `s` is taken by the other FSMs too: the output
FSM leaves IDLE with it in the same cycle and begins with tag 0, the receive FSM leaves IDLE with it
one cycle later. -/
structure RdState.Adopts (s : RdState c) (i j : RdInput c) : Prop where
  request : (rdStep s i).req.reqStateReg = .start ∧
    (rdStep s i).req.descTxRdReqAddressReg = i.descTxRdReqAddress ∧
    (rdStep s i).req.descTxRdReqLengthReg = i.descTxRdReqLength
  output : s.tr.trStateReg = .idle ∧ (rdStep (rdStep s i) j).tr.trStateReg = .start ∧
    (rdStep (rdStep s i) j).tr.outputCycleReg = beatCycles c i.descTxRdReqLength
  pointer : (rdStep s i).tag.opTagFifoRdptr = 0 ∧ (rdStep s i).tag.opTagFifoRd = false
  receive : (rdStep s i).recv.recvStateReg = .idle ∧ (rdStep (rdStep s i) j).recv.recvStateReg = .start ∧
    (rdStep (rdStep s i) j).recv.cplTrCycleReg = beatCycles c i.descTxRdReqLength

/-- Consecutive descriptors: each one is taken by all FSMs, the stream is the transfers one after the
other, and under a consumer that is ready again and again all their beats come out. -/
structure Consecutive (i : ℕ → RdInput c) : Prop where
  adopted : ∀ t, (RdChain.run i t).engine.req.take (i t) = true →
    (RdChain.run i t).engine.Adopts (i t) (i (t + 1))
  inOrder : ∀ t, (RdChain.run i t).InOrder
  drained : (∀ t, ∃ u, t ≤ u ∧ (i u).mAxisTlpTready = true) →
    ∀ t, ∃ u, (RdChain.run i t).stream <+: (RdChain.run i u).delivered

/-- The output FSM is idle and the release of the last tag is over. -/
def RdState.OutputIdle (s : RdState c) : Prop :=
  s.tr.trStateReg = .idle ∧ s.tag.opTagFifoRd = false

end FpgaPcie
