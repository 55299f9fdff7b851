import FpgaPcie.Rtl.DmaRdPackets

/-!
# The read engine and its host

The host answers each accepted MRd with data beats that carry the tag of the request. For
one tag the beats come in address order; between tags the order is free. What is still to
come is kept as one list of beats for each tag, next to the log of the accepted stream beats.
-/

namespace FpgaPcie

/-- Host memory, by byte address. -/
abbrev HostMem := ℕ → BitVec 8

/-- A data beat of a completion: the host bytes from `address` on, on the low lanes. -/
structure CplBeat where
  address : ℕ
  bytes : ℕ
  deriving DecidableEq

/-- The data beats that answer a request on a bus of `width` bytes. -/
def TlpHdr.cplBeats (h : TlpHdr) (width : ℕ) : List CplBeat :=
  (List.range ((h.byteCount + width - 1) / width)).map fun j =>
    ⟨h.byteAddress + width * j, min width (h.byteCount - width * j)⟩

structure RdSystem (c : RdConfig) where
  engine : RdState c
  owed : ℕ → List CplBeat
  delivered : List (AxisBeat c.busBytes)

variable {c : RdConfig}

namespace RdSystem

def owedNext (x : RdSystem c) (i : RdInput c) : ℕ → List CplBeat := fun tag =>
  (if x.engine.cplAccept i ∧ tag = rxCplTlpHdrTag i.rxCplTlpHdr then (x.owed tag).tail
    else x.owed tag) ++
  if x.engine.req.accept i ∧ tag = x.engine.req.txRdReqTlpHdrReg.tag then
    x.engine.req.txRdReqTlpHdrReg.cplBeats c.busBytes else []

def step (x : RdSystem c) (i : RdInput c) : RdSystem c where
  engine := rdStep x.engine i
  owed := x.owedNext i
  delivered := x.delivered ++ if x.engine.out.outValidReg && i.mAxisTlpTready then
    [x.engine.out.outReg] else []

def run (x : RdSystem c) (i : ℕ → RdInput c) : ℕ → RdSystem c
  | 0 => x
  | t + 1 => (x.run i t).step (i t)

lemma run_add (x : RdSystem c) (i : ℕ → RdInput c) (m n : ℕ) :
    x.run i (m + n) = (x.run i m).run (fun u => i (m + u)) n := by
  induction n with
  | zero => rfl
  | succ n ih => rw [← Nat.add_assoc, run, ih, run]

lemma run_succ (x : RdSystem c) (i : ℕ → RdInput c) (t : ℕ) :
    x.run i (t + 1) = (x.step (i 0)).run (fun u => i (u + 1)) t := by
  rw [Nat.add_comm, run_add]
  simp only [Nat.add_comm 1]
  rfl

/-- An engine with nothing owed and nothing delivered. -/
def fresh (s : RdState c) : RdSystem c := ⟨s, fun _ => [], []⟩

/-- A completion beat on the port is the oldest one owed for its tag. -/
def Answers (mem : HostMem) (x : RdSystem c) (i : RdInput c) : Prop :=
  i.rxCplTlpValid = true → ∃ b ∈ (x.owed (rxCplTlpHdrTag i.rxCplTlpHdr)).head?,
    ∀ j : Fin c.busBytes, j.val < b.bytes → i.rxCplTlpData j = mem ((b.address + j) % 2 ^ 64)

/-- The host is ready for every request and sends only what it owes. -/
structure Legal (mem : HostMem) (x : RdSystem c) (i : RdInput c) : Prop where
  ready : x.engine.req.txRdReqTlpValidReg = true → i.txRdReqTlpReady = true
  answers : x.Answers mem i

/-- What is owed is offered some time later, and the stream consumer is ready again and again. -/
structure Fair (x : RdSystem c) (i : ℕ → RdInput c) : Prop where
  answered : ∀ t tag, (x.run i t).owed tag ≠ [] → ∃ u, t ≤ u ∧ (i u).rxCplTlpValid = true
  consumed : ∀ t, ∃ u, t ≤ u ∧ (i u).mAxisTlpTready = true

end RdSystem

/-- The inputs start one descriptor, with a pulse in cycle 0. -/
structure StartsOnce (i : ℕ → RdInput c) (address length : ℕ) : Prop where
  pulse : (i 0).descTxRdReqStart = true
  address : (i 0).descTxRdReqAddress = address
  length : (i 0).descTxRdReqLength = length
  low : ∀ t, 0 < t → (i t).descTxRdReqStart = false

/-- The engine between two descriptors: every FSM idle, no tag allocated, no data left. -/
structure RdState.Quiet (s : RdState c) : Prop where
  req : s.req.reqStateReg = .idle
  recv : s.recv.recvStateReg = .idle
  tr : s.tr.trStateReg = .idle
  startReg : s.req.descTxRdReqStartReg = false
  valid : s.req.txRdReqTlpValidReg = false
  we : s.tag.opTagFifoWe = false
  rd : s.tag.opTagFifoRd = false
  tagFifo : s.tag.opTagFifo.words = []
  table : ∀ tag, tag < 2 ^ c.pcieTagWidth → s.tag.tagTableInfo tag = 0
  wrEn : ∀ tag, tag < 2 ^ c.pcieTagWidth → s.recv.cpldDataFifoWrEnReg tag = false
  rdEn : ∀ tag, s.tr.cpldDataFifoRdEnReg tag = false
  dataFifo : ∀ tag, tag < 2 ^ c.pcieTagWidth → (s.cpldDataFifo tag).words = []
  outFifo : s.out.Stores outputFifoAddrWidthRd []
  outValid : s.out.outValidReg = false

lemma rdReset_quiet (c : RdConfig) : (rdReset c).Quiet :=
  ⟨rfl, rfl, rfl, rfl, rfl, rfl, rfl, rfl, fun _ _ => rfl, fun _ _ => rfl, fun _ => rfl,
    fun _ _ => rfl, OutFifo.reset_stores _, rfl⟩

/-! ### The beats of a descriptor on a 512-bit bus with 512-byte requests -/

section Beats

variable (mem : HostMem) (address length : ℕ)

/-- The lanes carry the bytes of beat `b`. -/
def DataOk (b : ℕ) (data : Bytes c.busBytes) : Prop :=
  ∀ j : Fin c.busBytes, 64 * b + j < length → data j = mem ((address + 64 * b + j) % 2 ^ 64)

/-- Beat `b` of the descriptor as it is to appear on the stream. -/
structure BeatOk (b : ℕ) (beat : AxisBeat c.busBytes) : Prop where
  tdata : DataOk mem address length b beat.tdata
  tkeep : ∀ j : Fin c.busBytes, beat.tkeep j = decide (64 * b + j < length)
  tlast : beat.tlast = decide (b + 1 = (length + 63) / 64)

/-- The beats are the first beats of the descriptor. -/
def StreamOk (beats : List (AxisBeat c.busBytes)) : Prop :=
  ∀ b beat, beats[b]? = some beat → BeatOk mem address length b beat

/-- Beat `b` as the host owes it. -/
def owedBeat (b : ℕ) : CplBeat :=
  ⟨(address + 512 * (b / 8)) % 2 ^ 64 + 64 * (b % 8), min 64 (length - 64 * b)⟩

/-- The end of the beats of request `k`. -/
def endBeat (k : ℕ) : ℕ := min (8 * k + 8) ((length + 63) / 64)

end Beats

variable {mem : HostMem} {address length k : ℕ}

lemma StreamOk.left {beats rest : List (AxisBeat c.busBytes)}
    (h : StreamOk mem address length (beats ++ rest)) : StreamOk mem address length beats := by
  intro b beat hb
  apply h b beat
  have hlt := (List.getElem?_eq_some_iff.mp hb).1
  rw [List.getElem?_append_left hlt, hb]

lemma StreamOk.snoc {beats : List (AxisBeat c.busBytes)} {beat : AxisBeat c.busBytes}
    (h : StreamOk mem address length beats) (hb : BeatOk mem address length beats.length beat) :
    StreamOk mem address length (beats ++ [beat]) := by
  intro b beat' hb'
  by_cases hlt : b < beats.length
  · rw [List.getElem?_append_left hlt] at hb'
    exact h b beat' hb'
  · rw [List.getElem?_append_right (by omega), List.getElem?_singleton] at hb'
    split_ifs at hb' with hz
    have hbe : b = beats.length := by omega
    rw [hbe, ← Option.some.inj hb']
    exact hb

lemma endBeat_le (length k : ℕ) : endBeat length k ≤ 8 * k + 8 := Nat.min_le_left _ _

lemma lt_endBeat (hk : k < (length + 511) / 512) : 8 * k < endBeat length k := by
  unfold endBeat
  omega

/-- The host owes exactly the beats of request `k` for its header. -/
lemma cplBeats_eq (hc : c.Wide512) {h : TlpHdr} (hk : k < reqCount c length)
    (hcov : h.Covers (reqAddress c address k) (reqBytes c length k)) :
    h.cplBeats c.busBytes =
      (List.range' (8 * k) (endBeat length k - 8 * k)).map (owedBeat address length) := by
  have hpos := reqBytes_pos hk
  have hle := reqBytes_le (c := c) length k
  have hm := hc.mrrs
  have hb := hcov.byteCount hpos (by omega)
  rw [hc.reqCount] at hk
  rw [TlpHdr.cplBeats, hb, hcov.address, hc.busBytes, List.range'_eq_map_range, List.map_map]
  have hn : (reqBytes c length k + 64 - 1) / 64 = endBeat length k - 8 * k := by
    rw [hc.reqBytes, endBeat]
    omega
  rw [hn]
  apply List.map_congr_left
  intro j hj
  rw [List.mem_range] at hj
  have hj8 : j < 8 := by
    have := endBeat_le length k
    omega
  have hd : (8 * k + j) / 8 = k := by omega
  have hr : (8 * k + j) % 8 = j := by omega
  simp only [Function.comp, owedBeat, hd, hr, reqAddress, hm, hc.reqBytes, CplBeat.mk.injEq,
    true_and]
  omega

lemma dataOk_of_owed (hc : c.Wide512) {b : ℕ} {data : Bytes c.busBytes}
    (h : ∀ j : Fin c.busBytes, j.val < (owedBeat address length b).bytes →
      data j = mem (((owedBeat address length b).address + j) % 2 ^ 64)) :
    DataOk mem address length b data := by
  intro j hj
  have hj64 : j.val < 64 := hc.busBytes ▸ j.isLt
  have hb := h j (by simp only [owedBeat]; omega)
  rw [hb]
  congr 1
  simp only [owedBeat]
  omega

end FpgaPcie
