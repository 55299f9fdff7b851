import FpgaPcie.Lib.Progress
import FpgaPcie.Rtl.DmaWrPackets

/-!
# Runs of the write engine

The beats on the TLP port are at any time the first of the beats that the formulas give for
the stream beats taken. With a stream and a TLP port that move again and again all beats of the
descriptor come out, and they are the right TLPs for every length exactly for payloads of up
to 512 bytes, and for 1024-byte payloads when the descriptor is shorter than one.
-/

namespace FpgaPcie

variable {c : WrConfig} {address length : ℕ}

/-- The engine with the stream beats that it has taken into the output FIFO and the beats accepted
on the TLP port. -/
structure WrSystem (c : WrConfig) where
  engine : WrState c
  taken : List (SAxisBeat c.busBytes)
  emitted : List (WrBeat c)

namespace WrSystem

def step (x : WrSystem c) (i : WrInput c) : WrSystem c where
  engine := x.engine.step i
  taken := x.taken ++ if x.engine.validInit i then [i.sAxisTlp] else []
  emitted := x.emitted ++ if x.engine.out.outValidReg && i.txWrReqTlpReady then
    [x.engine.out.outReg] else []

def run (x : WrSystem c) (i : ℕ → WrInput c) : ℕ → WrSystem c
  | 0 => x
  | t + 1 => (x.run i t).step (i t)

def fresh (s : WrState c) : WrSystem c := ⟨s, [], []⟩

/-- The stream offers beats and the TLP port accepts beats again and again. -/
structure Fair (i : ℕ → WrInput c) : Prop where
  offered : ∀ t, ∃ u, t ≤ u ∧ (i u).sAxisTlpTvalid = true
  accepted : ∀ t, ∃ u, t ≤ u ∧ (i u).txWrReqTlpReady = true

end WrSystem

/-- The engine between two descriptors. -/
structure WrState.Quiet (s : WrState c) : Prop where
  idle : s.reg.reqStateReg = .idle
  addressReg : s.reg.descWrReqAddressReg = 0
  startReg : s.reg.descWrReqStartReg = false
  outFifo : s.out.Stores outputFifoAddrWidthWr []
  outValid : s.out.outValidReg = false

lemma wrReset_quiet (c : WrConfig) : (WrState.reset c).Quiet :=
  ⟨rfl, rfl, rfl, OutFifo.reset_stores _, rfl⟩

/-- The inputs start one descriptor, with a rising edge in cycle 0. -/
structure WrStartsOnce (i : ℕ → WrInput c) (address length : ℕ) : Prop where
  rise : (i 0).descWrReqStart = true
  address : (i 0).descWrReqAddress = address
  length : (i 0).descWrReqLength = length
  once : ∀ t, (i (t + 1)).descWrReqStart = true → (i t).descWrReqStart = true

/-! ### The invariant -/

section Invariant

variable (address length : ℕ)

/-- The request FSM, when `taken` stream beats have been taken. -/
structure WrReqInv (r : WrReg) (taken : ℕ) : Prop where
  lengthReg : r.descWrReqLengthReg = length
  addressReg : r.descWrReqAddressReg = 0
  idle : r.reqStateReg = .idle → taken = wrBeats c length
  start : r.reqStateReg = .start → taken < wrBeats c length ∧ r.cycleReg = wrBeats c length ∧
    r.opCycleReg = taken ∧ r.trCycleReg = tlpCount c length - taken / tlpBeats c ∧
    r.txWrReqAddrReg = tlpAddress c address (taken / tlpBeats c)

/-- The output FIFO holds `q`, and the flags that throttle the stream leave room in it. -/
structure WrFifo (s : WrState c) (q : List (WrBeat c)) : Prop where
  stores : s.out.Stores outputFifoAddrWidthWr q
  length_le : q.length ≤ 18
  not_half : s.out.outFifoHalfFullReg = false → q.length ≤ 16
  tready : s.reg.sAxisTlpTreadyReg = true → q.length ≤ 17

/-- The output FIFO holds `q`. -/
structure WrQueue (x : WrSystem c) (q : List (WrBeat c)) : Prop where
  stores : x.engine.out.Stores outputFifoAddrWidthWr q
  length_le : q.length ≤ 18
  not_half : x.engine.out.outFifoHalfFullReg = false → q.length ≤ 16
  tready : x.engine.reg.sAxisTlpTreadyReg = true → q.length ≤ 17
  beats : x.emitted ++ x.engine.out.pending q = x.taken.mapIdx (mwrBeat c address length)

structure WrInv (x : WrSystem c) : Prop where
  req : WrReqInv (c := c) address length x.engine.reg x.taken.length
  queue : ∃ q, WrQueue address length x q

end Invariant

section Step

variable {x : WrSystem c} {i : WrInput c}

lemma wrBeats_lt (hlen : length < 2 ^ 32) : wrBeats c length < 2 ^ 32 :=
  Nat.lt_of_le_of_lt (Chunks.count_le (by positivity)) hlen

lemma tlpCount_lt (hlen : length < 2 ^ 32) : tlpCount c length < 2 ^ 32 :=
  Nat.lt_of_le_of_lt (Chunks.count_le mps_pos) hlen

/-- The accepted beat is beat `taken`. -/
lemma WrReqInv.opCycleNext (hlen : length < 2 ^ 32) {taken : ℕ}
    (h : WrReqInv (c := c) address length x.engine.reg taken) (hv : x.engine.validInit i = true) :
    x.engine.reg.reqStateReg = .start ∧ x.engine.opCycleNext i = taken + 1 := by
  simp only [WrState.validInit, Bool.and_eq_true, beq_iff_eq] at hv
  obtain ⟨hs, ha⟩ := hv
  obtain ⟨hlt, -, hop, -⟩ := h.start hs
  have := wrBeats_lt (c := c) hlen
  refine ⟨hs, ?_⟩
  simp only [WrState.opCycleNext, hs, ha, if_true, hop]
  omega

lemma WrReqInv.wrBeatInit_eq (hcode : c.maxPayloadSize ≤ 3) (hw : c.offsetWidth = 6)
    (hlen : length < 2 ^ 32) {taken : ℕ}
    (h : WrReqInv (c := c) address length x.engine.reg taken) (hv : x.engine.validInit i = true) :
    x.engine.wrBeatInit i = mwrBeat c address length taken i.sAxisTlp := by
  obtain ⟨hs, hop⟩ := h.opCycleNext hlen hv
  obtain ⟨hlt, hcycle, hopr, htr, haddr⟩ := h.start hs
  have hk := div_lt_tlpCount hw hlt
  have hfield : txWrReqLengthNext c x.engine.reg =
      txWrReqLengthNext c (wrRegAt c address length taken) := by
    rw [txWrReqLengthNext_eq hcode h.lengthReg htr hk, txWrReqLengthNext_eq hcode rfl rfl hk]
    rfl
  have hhdr : mwrHdr c x.engine.reg = mwrHdr c (wrRegAt c address length taken) := by
    simp only [mwrHdr, hfield, h.addressReg, h.lengthReg, htr, haddr]
    rfl
  simp only [WrState.wrBeatInit, mwrBeat, hop, hhdr, hopr, hcycle]

lemma validInit_eq_false (h : x.engine.reg.reqStateReg = .idle) : x.engine.validInit i = false := by
  simp [WrState.validInit, h]

lemma validInit_tready {s : WrState c} (h : s.validInit i = true) :
    s.reg.sAxisTlpTreadyReg = true := by
  simp only [WrState.validInit, WrState.sAxisAccept, Bool.and_eq_true] at h
  exact h.2.2

lemma WrFifo.room {s : WrState c} {q : List (WrBeat c)} (h : WrFifo s q)
    (hv : s.validInit i = true) : q.length < 2 ^ outputFifoAddrWidthWr := by
  have := h.tready (validInit_tready hv)
  simp only [outputFifoAddrWidthWr]
  omega

lemma succ_div_eq (p b : ℕ) : (b + 1) / p = b / p + if (b + 1) % p = 0 then 1 else 0 := by
  rw [Nat.succ_div]
  simp only [Nat.dvd_iff_mod_eq_zero]

lemma tlpAddress_succ (address k : ℕ) :
    (tlpAddress c address k + 2 ^ (7 + c.maxPayloadSize)) % 2 ^ 64 = tlpAddress c address (k + 1) := by
  rw [tlpAddress, tlpAddress, Nat.mod_add_mod, Nat.mul_succ, Nat.add_assoc]
  rfl

/-- The request FSM counts the beats it takes. -/
theorem WrReqInv.step (hw : c.offsetWidth = 6) (hcode : c.maxPayloadSize ≤ 3) (hlen : length < 2 ^ 32)
    (hlow : i.descWrReqStart = true → x.engine.reg.descWrReqStartReg = true)
    (h : WrReqInv (c := c) address length x.engine.reg x.taken.length) :
    WrReqInv (c := c) address length (x.step i).engine.reg (x.step i).taken.length := by
  have htaken : (x.step i).taken.length = x.taken.length + (x.engine.validInit i).toNat := by
    rw [WrSystem.step, List.length_append]
    cases x.engine.validInit i <;> rfl
  rw [htaken]
  show WrReqInv (c := c) address length (x.engine.wrNext i) _
  cases hs : x.engine.reg.reqStateReg with
  | idle =>
    have hrise : (i.descWrReqStart && !x.engine.reg.descWrReqStartReg) = false := by
      cases hi : i.descWrReqStart with
      | false => rfl
      | true => rw [hlow hi]; rfl
    rw [validInit_eq_false hs]
    refine ⟨?_, ?_, fun _ => h.idle hs, fun h' => ?_⟩
    · simp [WrState.wrNext, hs, hrise, h.lengthReg]
    · simp [WrState.wrNext, hs, hrise, h.addressReg]
    · simp [WrState.wrNext, hs, hrise] at h'
  | start =>
    obtain ⟨hlt, hcycle, hop, htr, haddr⟩ := h.start hs
    have hlength : (x.engine.wrNext i).descWrReqLengthReg = length := by
      simp [WrState.wrNext, hs, h.lengthReg]
    have haddress : (x.engine.wrNext i).descWrReqAddressReg = 0 := by
      simp [WrState.wrNext, hs, h.addressReg]
    cases hv : x.engine.validInit i with
    | false =>
      have hopn : x.engine.opCycleNext i = x.taken.length := by
        have ha : x.engine.sAxisAccept i = false := by
          simpa [WrState.validInit, hs] using hv
        simp [WrState.opCycleNext, hs, ha, hop]
      have hends : x.engine.endsTlp i = false := by simp [WrState.endsTlp, hv]
      have hne : ¬x.taken.length = wrBeats c length := by omega
      refine ⟨hlength, haddress, fun h' => ?_, fun _ => ⟨hlt, ?_, ?_, ?_, ?_⟩⟩
      · simp [WrState.wrNext, hs, hopn, hcycle, hne] at h'
      · simp [WrState.wrNext, hs, hcycle]
      · simp [WrState.wrNext, hs, hopn]
      · simp [WrState.wrNext, hs, hends, htr]
      · simp [WrState.wrNext, hs, hends, haddr]
    | true =>
      obtain ⟨-, hopn⟩ := h.opCycleNext hlen hv
      have hends : x.engine.endsTlp i = decide ((x.taken.length + 1) % tlpBeats c = 0 ∨
          x.taken.length + 1 = wrBeats c length) := by
        rw [WrState.endsTlp, hv, Bool.true_and, hopn, hcycle, eopInit_eq hcode]
      rw [Bool.toNat_true]
      by_cases hlast : x.taken.length + 1 = wrBeats c length
      · refine ⟨hlength, haddress, fun _ => hlast, fun h' => ?_⟩
        simp [WrState.wrNext, hs, hopn, hcycle, hlast] at h'
      · have hk := div_lt_tlpCount hw (show x.taken.length + 1 < wrBeats c length by omega)
        have hT := tlpCount_lt (c := c) hlen
        have hdiv := succ_div_eq (tlpBeats c) x.taken.length
        simp only [hlast, or_false] at hends
        refine ⟨hlength, haddress, fun h' => ?_, fun _ => ⟨by omega, ?_, ?_, ?_, ?_⟩⟩
        · simp [WrState.wrNext, hs, hopn, hcycle, hlast] at h'
        · simp [WrState.wrNext, hs, hcycle]
        · simp [WrState.wrNext, hs, hopn]
        · rw [hdiv] at hk ⊢
          simp only [WrState.wrNext, hs, hends, htr, decide_eq_true_eq]
          by_cases hz : (x.taken.length + 1) % tlpBeats c = 0
          · rw [if_pos hz] at hk ⊢
            rw [if_pos hz]
            generalize x.taken.length / tlpBeats c = k at hk ⊢
            omega
          · rw [if_neg hz, if_neg hz, Nat.add_zero]
        · rw [hdiv]
          simp only [WrState.wrNext, hs, hends, haddr, decide_eq_true_eq]
          split_ifs with hz
          · exact tlpAddress_succ address _
          · rfl

/-- The output FIFO never fills up. -/
theorem WrFifo.step {s : WrState c} {q : List (WrBeat c)} (h : WrFifo s q) (i : WrInput c) :
    WrFifo (s.step i) (s.out.queueNext (s.validInit i) (s.wrBeatInit i) i.txWrReqTlpReady q) := by
  have hle := s.out.queueNext_length_le (s.validInit i) (s.wrBeatInit i) i.txWrReqTlpReady q
  have hone := Bool.toNat_le (s.validInit i)
  have hroom := h.room (i := i)
  refine ⟨OutFifo.step_stores h.stores _ hroom _ _, ?_, fun hh => ?_, fun ht => ?_⟩
  · have := h.length_le
    cases hv : s.validInit i with
    | false =>
      rw [hv, Bool.toNat_false] at hle
      omega
    | true =>
      have := h.tready (validInit_tready hv)
      rw [hv, Bool.toNat_true] at hle
      omega
  · have hhalf := OutFifo.step_halfFull h.stores (s.validInit i) (s.wrBeatInit i) i.txWrReqTlpReady
    have hh' : (s.out.step outputFifoAddrWidthWr (s.validInit i)
        (s.wrBeatInit i) i.txWrReqTlpReady).outFifoHalfFullReg = false := hh
    rw [hhalf, decide_eq_false_iff_not] at hh'
    simp only [outputFifoAddrWidthWr] at hh'
    omega
  · have hhalf : s.out.outFifoHalfFullReg = false := by
      have ht' : (s.wrNext i).sAxisTlpTreadyReg = true := ht
      cases hs : s.reg.reqStateReg with
      | idle =>
        simp only [WrState.wrNext, hs] at ht'
        split_ifs at ht'
      | start => simpa [WrState.wrNext, hs] using ht'
    have := h.not_half hhalf
    omega

/-- The output FIFO never fills up, and passes the beats on in order. -/
theorem WrQueue.step (hw : c.offsetWidth = 6) (hcode : c.maxPayloadSize ≤ 3) (hlen : length < 2 ^ 32)
    (h : WrReqInv (c := c) address length x.engine.reg x.taken.length) {q : List (WrBeat c)}
    (hq : WrQueue address length x q) :
    WrQueue address length (x.step i)
      (x.engine.out.queueNext (x.engine.validInit i) (x.engine.wrBeatInit i) i.txWrReqTlpReady q) := by
  have hfifo : WrFifo x.engine q := ⟨hq.stores, hq.length_le, hq.not_half, hq.tready⟩
  have hnext := hfifo.step i
  refine ⟨hnext.stores, hnext.length_le, hnext.not_half, hnext.tready, ?_⟩
  have hpend := OutFifo.step_pending hq.stores (x.engine.validInit i) (x.engine.wrBeatInit i)
    i.txWrReqTlpReady
  have hbeats := hq.beats
  have hnew : (x.taken ++ if x.engine.validInit i then [i.sAxisTlp] else []).mapIdx
      (mwrBeat c address length) = x.taken.mapIdx (mwrBeat c address length) ++
        if x.engine.validInit i then [x.engine.wrBeatInit i] else [] := by
    cases hv : x.engine.validInit i with
    | false => simp
    | true =>
      rw [h.wrBeatInit_eq hcode hw hlen hv]
      simp
  show (x.emitted ++ _) ++ (x.engine.out.step _ _ _ _).pending _ = _
  rw [List.append_assoc, hpend, ← List.append_assoc, hbeats]
  exact hnew.symm

theorem WrInv.step (hw : c.offsetWidth = 6) (hcode : c.maxPayloadSize ≤ 3) (hlen : length < 2 ^ 32)
    (hlow : i.descWrReqStart = true → x.engine.reg.descWrReqStartReg = true)
    (h : WrInv address length x) : WrInv address length (x.step i) := by
  obtain ⟨q, hq⟩ := h.queue
  exact ⟨h.req.step hw hcode hlen hlow, _, hq.step hw hcode hlen h.req⟩

end Step

/-! ### Runs -/

section Run

variable {s : WrState c} {i : ℕ → WrInput c}

lemma WrState.wrNext_startReg (s : WrState c) (i : WrInput c) :
    (s.wrNext i).descWrReqStartReg = i.descWrReqStart := by
  unfold WrState.wrNext
  dsimp only
  split
  · split <;> rfl
  · rfl

lemma WrInv.init {j : WrInput c} (hcode : c.maxPayloadSize ≤ 3) (haddr : j.descWrReqAddress < 2 ^ 64)
    (hpos : 0 < j.descWrReqLength) (hlen : j.descWrReqLength < 2 ^ 32) (hquiet : s.Quiet)
    (hstart : j.descWrReqStart = true) :
    WrInv j.descWrReqAddress j.descWrReqLength ((WrSystem.fresh s).step j) := by
  have hv : s.validInit j = false := validInit_eq_false (x := WrSystem.fresh s) hquiet.idle
  have htaken : ((WrSystem.fresh s).step j).taken = [] := by
    simp [WrSystem.step, WrSystem.fresh, hv]
  have hn : 0 < wrBeats c j.descWrReqLength := Chunks.count_pos (by positivity) hpos
  have haddr' : tlpAddress c j.descWrReqAddress 0 = j.descWrReqAddress := by
    rw [tlpAddress, Nat.mul_zero, Nat.add_zero, Nat.mod_eq_of_lt haddr]
  constructor
  · rw [htaken, List.length_nil]
    refine ⟨?_, ?_, fun h => ?_, fun _ => ⟨hn, ?_, ?_, ?_, ?_⟩⟩
    · simp [WrSystem.step, WrSystem.fresh, WrState.step, WrState.wrNext, hquiet.idle, hstart, hquiet.startReg]
    · simp [WrSystem.step, WrSystem.fresh, WrState.step, WrState.wrNext, hquiet.idle, hstart, hquiet.startReg,
        hquiet.addressReg]
    · simp [WrSystem.step, WrSystem.fresh, WrState.step, WrState.wrNext, hquiet.idle, hstart,
        hquiet.startReg] at h
    · simp [WrSystem.step, WrSystem.fresh, WrState.step, WrState.wrNext, hquiet.idle, hstart, hquiet.startReg,
        wrCycleNext_eq hlen]
    · simp [WrSystem.step, WrSystem.fresh, WrState.step, WrState.wrNext, hquiet.idle, hstart, hquiet.startReg]
    · simp [WrSystem.step, WrSystem.fresh, WrState.step, WrState.wrNext, hquiet.idle, hstart, hquiet.startReg,
        wrTrCycleNext_eq hcode]
    · simp [WrSystem.step, WrSystem.fresh, WrState.step, WrState.wrNext, hquiet.idle, hstart, hquiet.startReg,
        haddr']
  · refine ⟨[], ?_, Nat.zero_le _, fun _ => Nat.zero_le _, fun _ => Nat.zero_le _, ?_⟩
    · have hstores := OutFifo.step_stores hquiet.outFifo (s.validInit j)
        (fun _ => by simp [outputFifoAddrWidthWr]) (s.wrBeatInit j) j.txWrReqTlpReady
      rw [hv, OutFifo.queueNext_nil] at hstores
      simpa [WrSystem.step, WrSystem.fresh, WrState.step, hv] using hstores
    · have hvalid : (s.step j).out.outValidReg = false := by
        simp [WrState.step, OutFifo.step, OutFifo.load_eq hquiet.outFifo, hquiet.outValid]
      rw [htaken]
      simp [WrSystem.step, WrSystem.fresh, OutFifo.pending, hvalid, hquiet.outValid]

theorem WrInv.run (hw : c.offsetWidth = 6) (hcode : c.maxPayloadSize ≤ 3) (haddr : address < 2 ^ 64)
    (hpos : 0 < length) (hlen : length < 2 ^ 32) (hquiet : s.Quiet)
    (hstart : WrStartsOnce i address length) (t : ℕ) :
    WrInv address length ((WrSystem.fresh s).run i (t + 1)) := by
  obtain ⟨hrise, ha, hl, honce⟩ := hstart
  induction t with
  | zero =>
    have hinit := WrInv.init (j := i 0) hcode (by omega) (by omega) (by omega) hquiet hrise
    rw [ha, hl] at hinit
    exact hinit
  | succ t ih =>
    apply ih.step hw hcode hlen
    intro hi
    show (((WrSystem.fresh s).run i t).engine.wrNext (i t)).descWrReqStartReg = true
    rw [WrState.wrNext_startReg]
    exact honce t hi

/-- Nothing is taken and nothing is emitted in this cycle. -/
structure WrStalled (x : WrSystem c) (i : WrInput c) : Prop where
  take : x.engine.validInit i = false
  emit : (x.engine.out.outValidReg && i.txWrReqTlpReady) = false

variable {x : WrSystem c}

lemma exists_wrStalled (h : ∀ t, WrInv address length (x.run i t)) :
    ∃ t₀, ∀ t, t₀ ≤ t → WrStalled (x.run i t) (i t) := by
  have hsucc : ∀ t, (x.run i (t + 1)).taken.length + (x.run i (t + 1)).emitted.length =
      (x.run i t).taken.length + (x.run i t).emitted.length +
        (((x.run i t).engine.validInit (i t)).toNat +
          ((x.run i t).engine.out.outValidReg && (i t).txWrReqTlpReady).toNat) := by
    intro t
    rw [WrSystem.run, WrSystem.step, List.length_append, List.length_append]
    cases (x.run i t).engine.validInit (i t) <;>
      cases (x.run i t).engine.out.outValidReg && (i t).txWrReqTlpReady <;> simp <;> omega
  have hbound : ∀ t, (x.run i t).taken.length + (x.run i t).emitted.length ≤
      wrBeats c length + wrBeats c length := by
    intro t
    obtain ⟨q, hq⟩ := (h t).queue
    have hreq := (h t).req
    have htaken : (x.run i t).taken.length ≤ wrBeats c length := by
      cases hs : (x.run i t).engine.reg.reqStateReg with
      | idle => exact (hreq.idle hs).le
      | start => exact (hreq.start hs).1.le
    have hlen := congrArg List.length hq.beats
    rw [List.length_append, List.length_mapIdx] at hlen
    omega
  obtain ⟨t₀, ht₀⟩ := Progress.eventually_const
    (monotone_nat_of_le_succ fun t => by rw [hsucc]; omega) hbound
  refine ⟨t₀, fun t ht => ?_⟩
  have h1 := ht₀ t ht
  have h2 := ht₀ (t + 1) (by omega)
  rw [hsucc, h1] at h2
  constructor
  · cases hv : (x.run i t).engine.validInit (i t) with
    | false => rfl
    | true => rw [hv, Bool.toNat_true] at h2; omega
  · cases hv : (x.run i t).engine.out.outValidReg && (i t).txWrReqTlpReady with
    | false => rfl
    | true => rw [hv, Bool.toNat_true] at h2; omega

/-- When the stream offers a beat again and again as long as one is missing, and the TLP port moves again and
again, all beats come out. -/
theorem WrInv.emits_of_offered
    (hoffered : ∀ t, (x.run i t).engine.reg.reqStateReg = .start → ∃ u, t ≤ u ∧ (i u).sAxisTlpTvalid = true)
    (haccepted : ∀ t, ∃ u, t ≤ u ∧ (i u).txWrReqTlpReady = true)
    (h : ∀ t, WrInv address length (x.run i t)) :
    ∃ t₁, ∀ t, t₁ ≤ t → (x.run i t).taken.length = wrBeats c length ∧
      (x.run i t).emitted = (x.run i t).taken.mapIdx (mwrBeat c address length) := by
  obtain ⟨t₀, hst⟩ := exists_wrStalled h
  have hvalid : ∀ t, t₀ ≤ t → (x.run i t).engine.out.outValidReg = false := by
    intro t ht
    by_contra hv
    rw [Bool.not_eq_false] at hv
    have hstay : ∀ d, (x.run i (t + d)).engine.out.outValidReg = true := by
      intro d
      induction d with
      | zero => exact hv
      | succ d ih =>
        have hd := (hst (t + d) (by omega)).emit
        rw [ih, Bool.true_and] at hd
        rw [← Nat.add_assoc]
        simp [WrSystem.run, WrSystem.step, WrState.step, OutFifo.step, ih, hd]
    obtain ⟨u, hu, hready⟩ := haccepted t
    obtain ⟨d, rfl⟩ := Nat.exists_eq_add_of_le hu
    have hd := (hst (t + d) (by omega)).emit
    rw [hstay d, hready] at hd
    cases hd
  have hnil : ∀ t, t₀ ≤ t → ∀ q, WrQueue address length (x.run i t) q → q = [] := by
    intro t ht q hq
    have hv' := hvalid (t + 1) (by omega)
    simp only [WrSystem.run, WrSystem.step, WrState.step, OutFifo.step, OutFifo.load_eq hq.stores,
      hvalid t ht] at hv'
    simpa using hv'
  have hhalf : ∀ t, t₀ ≤ t → (x.run i (t + 1)).engine.out.outFifoHalfFullReg = false := by
    intro t ht
    obtain ⟨q, hq⟩ := (h t).queue
    have hq' := hnil t ht q hq
    subst hq'
    have hhalf := OutFifo.step_halfFull hq.stores ((x.run i t).engine.validInit (i t))
      ((x.run i t).engine.wrBeatInit (i t)) (i t).txWrReqTlpReady
    rw [WrSystem.run, WrSystem.step, WrState.step, hhalf]
    simp [outputFifoAddrWidthWr]
  -- a request FSM that is still started would be ready, and the stream offers a beat
  have hidle : ∀ t, t₀ + 1 ≤ t → (x.run i t).engine.reg.reqStateReg = .idle := by
    intro t ht
    by_contra hs
    have hstart : ∀ d, (x.run i (t + d)).engine.reg.reqStateReg = .start := by
      intro d
      induction d with
      | zero =>
        cases hs' : (x.run i t).engine.reg.reqStateReg with
        | idle => exact absurd hs' hs
        | start => rfl
      | succ d ih =>
        have hv := (hst (t + d) (by omega)).take
        have ha : (x.run i (t + d)).engine.sAxisAccept (i (t + d)) = false := by
          simpa [WrState.validInit, ih] using hv
        obtain ⟨hlt, hcycle, hop, -⟩ := (h (t + d)).req.start ih
        have hne : ¬(x.run i (t + d)).taken.length = wrBeats c length := by omega
        rw [← Nat.add_assoc]
        simp [WrSystem.run, WrSystem.step, WrState.step, WrState.wrNext, WrState.opCycleNext, ih, ha, hop,
          hcycle, hne]
    obtain ⟨u, hu, hoff⟩ := hoffered (t + 1) (hstart 1)
    obtain ⟨d, rfl⟩ := Nat.exists_eq_add_of_le hu
    have hready : (x.run i (t + 1 + d)).engine.reg.sAxisTlpTreadyReg = true := by
      have hh := hhalf (t - 1 + d) (by omega)
      have he : t - 1 + d + 1 = t + d := by omega
      rw [he] at hh
      have hs' := hstart d
      have he' : t + 1 + d = t + d + 1 := by omega
      rw [he']
      simp [WrSystem.run, WrSystem.step, WrState.step, WrState.wrNext, hs', hh]
    have htake := (hst (t + 1 + d) (by omega)).take
    have hs' := hstart (1 + d)
    rw [← Nat.add_assoc] at hs'
    simp [WrState.validInit, WrState.sAxisAccept, hs', hoff, hready] at htake
  refine ⟨t₀ + 1, fun t ht => ?_⟩
  obtain ⟨q, hq⟩ := (h t).queue
  have hq' := hnil t (by omega) q hq
  subst hq'
  have hbeats := hq.beats
  rw [OutFifo.pending, hvalid t (by omega)] at hbeats
  simp only [Bool.false_eq_true, if_false, List.append_nil] at hbeats
  exact ⟨(h t).req.idle (hidle t ht), hbeats⟩

/-- When stream and TLP port move again and again, all beats come out. -/
theorem WrInv.emits (hfair : WrSystem.Fair i) (h : ∀ t, WrInv address length (x.run i t)) :
    ∃ t₁, ∀ t, t₁ ≤ t → (x.run i t).taken.length = wrBeats c length ∧
      (x.run i t).emitted = (x.run i t).taken.mapIdx (mwrBeat c address length) :=
  WrInv.emits_of_offered (fun t _ => hfair.offered t) hfair.accepted h

end Run

end FpgaPcie
