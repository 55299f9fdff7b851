import FpgaPcie.Lib.Progress
import FpgaPcie.Lib.ZipLog
import FpgaPcie.Rtl.AxiDmaRd

/-!
# Runs of the card memory reader

Whatever the ready and valid flags do, the bursts on the AR channel are the words of the descriptors taken,
in order, and the stream gives each descriptor a frame of the words that came back. With a memory behind
the AXI port that answers every burst, each descriptor gets the frame of its own bytes.
-/

namespace FpgaPcie

variable {c : AxiConfig}

/-- The keep and last flags of a beat. -/
structure BeatShape (n : ℕ) where
  tkeep : Fin n → Bool
  tlast : Bool

def BeatShape.beat {n : ℕ} (b : BeatShape n) (w : Bytes n) : AxisBeat n := ⟨w, b.tkeep, b.tlast⟩

/-- The beats of a descriptor: each keeps the bytes that are left of it, and the last one is marked. -/
def AxiDesc.shapes (c : AxiConfig) (d : AxiDesc) : List (BeatShape c.axiStrbWidth) :=
  (List.range (Chunks.count c.axiStrbWidth d.len)).map fun j =>
    ⟨fun k => decide (c.axiStrbWidth * j + k < d.len), decide (j + 1 = Chunks.count c.axiStrbWidth d.len)⟩

/-- The frame that a descriptor is to give for the memory `mem`. -/
def AxiDesc.frame (c : AxiConfig) (mem : ℕ → Bytes c.axiStrbWidth) (d : AxiDesc) :
    List (AxisBeat c.axiStrbWidth) :=
  List.zipWith BeatShape.beat (d.shapes c) ((d.words c).map mem)

/-- The reader with the descriptors it has taken, the bursts accepted on the AR channel, the words taken on the R
channel and the beats accepted on the stream. -/
structure AxiDmaRdSystem (c : AxiConfig) where
  engine : AxiDmaRdState c
  accepted : List AxiDesc
  issued : List AxiBurst
  received : List (Bytes c.axiStrbWidth)
  streamed : List (AxisBeat c.axiStrbWidth)

namespace AxiDmaRdSystem

variable (x : AxiDmaRdSystem c) (i : AxiDmaRdInput c)

/-- The burst on the AR channel. -/
def presented : List AxiBurst :=
  if x.engine.axi.mAxiArvalidReg then [⟨x.engine.axi.mAxiAraddrReg, x.engine.axi.mAxiArlenReg⟩] else []

def step : AxiDmaRdSystem c where
  engine := x.engine.step i
  accepted := x.accepted ++ if x.engine.descAccept i then [i.sAxisReadDesc] else []
  issued := x.issued ++ if i.mAxiArready then x.presented else []
  received := x.received ++ if x.engine.axis.mAxiRreadyReg && i.mAxiRvalid then [i.mAxiRdata] else []
  streamed := x.streamed ++ if x.engine.out.outValidReg && i.mAxisReadDataTready then
    [x.engine.out.outReg] else []

/-- A run from the state `s`, with empty logs. -/
def run (s : AxiDmaRdState c) (i : ℕ → AxiDmaRdInput c) : ℕ → AxiDmaRdSystem c
  | 0 => ⟨s, [], [], [], []⟩
  | t + 1 => (run s i t).step (i t)

/-- The descriptors have between one byte and 4 GiB. -/
def DescOk (i : AxiDmaRdInput c) : Prop :=
  i.sAxisReadDescValid = true → 1 ≤ i.sAxisReadDesc.len ∧ i.sAxisReadDesc.len < 2 ^ 32

/-! ### Bursts -/

/-- The words that are left of the descriptor. -/
def rest : List ℕ :=
  if x.engine.axi.axiStateReg = .start then
    c.wordAddrs x.engine.axi.addrReg (Chunks.count c.axiStrbWidth x.engine.axi.opWordCountReg)
  else []

structure AxiInv : Prop where
  words : (x.issued ++ x.presented).flatMap (AxiBurst.words c) ++ x.rest = x.accepted.flatMap (AxiDesc.words c)
  legal : ∀ b ∈ x.issued ++ x.presented, b.Legal c
  left : x.engine.axi.axiStateReg = .start → x.engine.axi.addrReg % c.axiStrbWidth = 0 ∧
    1 ≤ x.engine.axi.opWordCountReg ∧ x.engine.axi.opWordCountReg < 2 ^ 32
  ready : x.engine.axi.sAxisReadDescReadyReg = true →
    x.engine.axi.axiStateReg = .idle ∧ x.engine.axi.axisCmdValidReg = false

variable {x i}

lemma issued_presented (hstay : (x.engine.axiNext i).mAxiArvalidReg = (x.engine.axi.mAxiArvalidReg && !i.mAxiArready))
    (haddr : (x.engine.axiNext i).mAxiAraddrReg = x.engine.axi.mAxiAraddrReg)
    (hlen : (x.engine.axiNext i).mAxiArlenReg = x.engine.axi.mAxiArlenReg) :
    (x.step i).issued ++ (x.step i).presented = x.issued ++ x.presented := by
  simp only [step, presented, AxiDmaRdState.step, hstay, haddr, hlen]
  cases i.mAxiArready <;> simp

theorem AxiInv.step (hdesc : DescOk i) (h : x.AxiInv) : (x.step i).AxiInv := by
  obtain ⟨hwords, hlegal, hleft, hready⟩ := h
  cases hs : x.engine.axi.axiStateReg with
  | idle =>
    have hrest : x.rest = [] := by simp [rest, hs]
    cases hacc : x.engine.descAccept i with
    | true =>
      have hv : i.sAxisReadDescValid = true := by
        simp only [AxiDmaRdState.descAccept, Bool.and_eq_true] at hacc
        exact hacc.2
      have hsame : (x.step i).issued ++ (x.step i).presented = x.issued ++ x.presented := by
        apply issued_presented <;> simp [AxiDmaRdState.axiNext, hs, hacc]
      have hrest' : (x.step i).rest = i.sAxisReadDesc.words c := by
        simp [rest, AxiDmaRdSystem.step, AxiDmaRdState.step, AxiDmaRdState.axiNext, hs, hacc, AxiDesc.words]
      have haccepted : (x.step i).accepted = x.accepted ++ [i.sAxisReadDesc] := by
        simp [AxiDmaRdSystem.step, hacc]
      refine ⟨?_, ?_, fun _ => ?_, fun hr => ?_⟩
      · rw [hrest, List.append_nil] at hwords
        rw [hsame, hrest', haccepted, hwords, List.flatMap_append]
        simp
      · rw [hsame]
        exact hlegal
      · simpa [AxiDmaRdSystem.step, AxiDmaRdState.step, AxiDmaRdState.axiNext, hs, hacc]
          using And.intro (AxiConfig.addrMask_aligned (c := c) i.sAxisReadDesc.addr) (hdesc hv)
      · simp [AxiDmaRdSystem.step, AxiDmaRdState.step, AxiDmaRdState.axiNext, hs, hacc] at hr
    | false =>
      have hsame : (x.step i).issued ++ (x.step i).presented = x.issued ++ x.presented := by
        apply issued_presented <;> simp [AxiDmaRdState.axiNext, hs, hacc]
      have hrest' : (x.step i).rest = [] := by
        simp [rest, AxiDmaRdSystem.step, AxiDmaRdState.step, AxiDmaRdState.axiNext, hs, hacc]
      have haccepted : (x.step i).accepted = x.accepted := by simp [AxiDmaRdSystem.step, hacc]
      refine ⟨?_, ?_, fun h' => ?_, fun hr => ?_⟩
      · rw [hsame, hrest', haccepted, ← hwords, hrest]
      · rw [hsame]
        exact hlegal
      · simp [AxiDmaRdSystem.step, AxiDmaRdState.step, AxiDmaRdState.axiNext, hs, hacc] at h'
      · simp only [AxiDmaRdSystem.step, AxiDmaRdState.step, AxiDmaRdState.axiNext, hs, hacc, Bool.false_eq_true,
          if_false, Bool.not_eq_true'] at hr ⊢
        simp [hr]
  | start =>
    obtain ⟨haddr, hpos, hlt⟩ := hleft hs
    have hacc : x.engine.descAccept i = false := by
      cases hr : x.engine.axi.sAxisReadDescReadyReg with
      | false => simp [AxiDmaRdState.descAccept, hr]
      | true =>
        have hidle := (hready hr).1
        rw [hs] at hidle
        cases hidle
    have haccepted : (x.step i).accepted = x.accepted := by simp [AxiDmaRdSystem.step, hacc]
    cases hv : x.engine.axi.mAxiArvalidReg with
    | true =>
      have hsame : (x.step i).issued ++ (x.step i).presented = x.issued ++ x.presented := by
        apply issued_presented <;> simp [AxiDmaRdState.axiNext, hs, hv]
      have hrest' : (x.step i).rest = x.rest := by
        simp [rest, AxiDmaRdSystem.step, AxiDmaRdState.step, AxiDmaRdState.axiNext, hs, hv]
      refine ⟨?_, ?_, fun _ => ?_, fun hr => ?_⟩
      · rw [hsame, hrest', haccepted, hwords]
      · rw [hsame]
        exact hlegal
      · simpa [AxiDmaRdSystem.step, AxiDmaRdState.step, AxiDmaRdState.axiNext, hs, hv]
          using And.intro haddr (And.intro hpos hlt)
      · simp [AxiDmaRdSystem.step, AxiDmaRdState.step, AxiDmaRdState.axiNext, hs, hv] at hr
    | false =>
      -- the next burst is put on the AR channel
      have hcut := AxiConfig.trWordCountNext_cut haddr hpos
      generalize htr : c.trWordCountNext x.engine.axi.addrReg x.engine.axi.opWordCountReg = tr at hcut
      have hle := hcut.le
      have htrpos := hcut.pos
      have hop : (x.engine.axi.opWordCountReg + (2 ^ 32 - tr)) % 2 ^ 32 = x.engine.axi.opWordCountReg - tr := by
        omega
      have hissued : (x.step i).issued = x.issued := by simp [AxiDmaRdSystem.step, presented, hv]
      have hpresented : x.presented = [] := by simp [presented, hv]
      have hpresented' : (x.step i).presented = [⟨x.engine.axi.addrReg, c.axlenNext tr⟩] := by
        simp [presented, AxiDmaRdSystem.step, AxiDmaRdState.step, AxiDmaRdState.axiNext, hs, hv, htr]
      have hrest : x.rest = AxiBurst.words c ⟨x.engine.axi.addrReg, c.axlenNext tr⟩ ++
          c.wordAddrs ((x.engine.axi.addrReg + tr) % 2 ^ c.axiAddrWidth)
            (Chunks.count c.axiStrbWidth (x.engine.axi.opWordCountReg - tr)) := by
        rw [rest, if_pos hs]
        exact AxiConfig.words_cut hcut hlt
      have hrest' : (x.step i).rest = c.wordAddrs ((x.engine.axi.addrReg + tr) % 2 ^ c.axiAddrWidth)
          (Chunks.count c.axiStrbWidth (x.engine.axi.opWordCountReg - tr)) := by
        simp only [rest, AxiDmaRdSystem.step, AxiDmaRdState.step, AxiDmaRdState.axiNext, hs, hv, htr, hop,
          Bool.false_eq_true, if_false]
        by_cases hmore : 0 < x.engine.axi.opWordCountReg - tr
        · simp [hmore]
        · rw [if_neg hmore, if_neg (by simp), Nat.eq_zero_of_not_pos hmore]
          simp [Chunks.count, Nat.div_eq_of_lt (Nat.sub_lt c.axiStrbWidth_pos Nat.one_pos)]
      rw [hpresented, List.append_nil] at hwords hlegal
      refine ⟨?_, ?_, fun h' => ?_, fun hr => ?_⟩
      · rw [hissued, hpresented', hrest', haccepted, ← hwords, hrest, List.flatMap_append]
        simp
      · rw [hissued, hpresented']
        intro b hb
        rcases List.mem_append.mp hb with hb | hb
        · exact hlegal b hb
        · rw [List.mem_singleton.mp hb]
          exact AxiConfig.burst_legal hcut haddr hlt
      · have hmore : 0 < x.engine.axi.opWordCountReg - tr := by
          by_contra hnot
          simp only [AxiDmaRdSystem.step, AxiDmaRdState.step, AxiDmaRdState.axiNext, hs, hv, htr, hop,
            Bool.false_eq_true, if_false, if_neg hnot] at h'
          cases h'
        have hnext := AxiConfig.next_aligned hcut haddr hmore
        have hbound : x.engine.axi.opWordCountReg - tr < 2 ^ 32 := by omega
        simp only [AxiDmaRdSystem.step, AxiDmaRdState.step, AxiDmaRdState.axiNext, hs, hv, htr, hop,
          Bool.false_eq_true, if_false]
        exact ⟨hnext, hmore, hbound⟩
      · simp only [AxiDmaRdSystem.step, AxiDmaRdState.step, AxiDmaRdState.axiNext, hs, hv, htr, hop,
          Bool.false_eq_true, if_false, Bool.and_eq_true, Bool.not_eq_true', decide_eq_false_iff_not] at hr ⊢
        simp [hr.1, hr.2]

/-! ### Beats -/

/-- The beats that are left for a counter and a last cycle offset. -/
def tailShapes (c : AxiConfig) (count offset : ℕ) : List (BeatShape c.axiStrbWidth) :=
  List.replicate count ⟨fun _ => true, false⟩ ++ [⟨AxiDmaRdState.tkeepLast c offset, true⟩]

lemma tailShapes_succ (n offset : ℕ) :
    tailShapes c (n + 1) offset = ⟨fun _ => true, false⟩ :: tailShapes c n offset := rfl

/-- What the counters of a descriptor stand for. -/
theorem shapes_eq (d : AxiDesc) (hpos : 1 ≤ d.len) (hlt : d.len < 2 ^ 32) :
    d.shapes c = tailShapes c (c.cycleCountNext d.len) (d.len % 2 ^ c.axiBurstSize) := by
  have hS := c.axiStrbWidth_pos
  have hcycle := AxiConfig.cycleCountNext_eq (c := c) hpos hlt
  have hcount : Chunks.count c.axiStrbWidth d.len = (d.len - 1) / c.axiStrbWidth + 1 := by
    rw [← hcycle, AxiConfig.cycleCountNext_add_one hpos hlt]
  have hlast := Nat.div_add_mod (d.len - 1) c.axiStrbWidth
  have hmod := Nat.mod_lt (d.len - 1) hS
  rw [hcycle, AxiDesc.shapes, hcount, List.range_succ, List.map_append, List.map_singleton, tailShapes]
  congr 1
  · rw [List.eq_replicate_iff]
    refine ⟨by simp, fun b hb => ?_⟩
    obtain ⟨j, hj, rfl⟩ := List.mem_map.mp hb
    rw [List.mem_range] at hj
    have hmul := Nat.mul_le_mul_left c.axiStrbWidth (Nat.succ_le_of_lt hj)
    rw [Nat.mul_succ] at hmul
    congr 1
    · funext k
      have := k.isLt
      rw [decide_eq_true_eq]
      omega
    · rw [decide_eq_false_iff_not]
      omega
  · congr 2
    · funext k
      have hk := k.isLt
      have hdm := Nat.div_add_mod d.len c.axiStrbWidth
      have hlt' := Nat.mod_lt d.len hS
      show decide (_ < _) = (decide (d.len % c.axiStrbWidth = 0) || decide (_ < d.len % c.axiStrbWidth))
      by_cases hz : d.len % c.axiStrbWidth = 0
      · have hfull : (d.len - 1) % c.axiStrbWidth = c.axiStrbWidth - 1 := by
          have hq : d.len - 1 = c.axiStrbWidth * (d.len / c.axiStrbWidth - 1) + (c.axiStrbWidth - 1) := by
            have hge : 1 ≤ d.len / c.axiStrbWidth := by
              by_contra h0
              rw [Nat.lt_one_iff.mp (Nat.not_le.mp h0)] at hdm
              omega
            rw [Nat.mul_sub, Nat.mul_one]
            have := Nat.mul_le_mul_left c.axiStrbWidth hge
            omega
          rw [hq, Nat.mul_add_mod, Nat.mod_eq_of_lt (by omega)]
        simp only [hz, decide_true, Bool.true_or, decide_eq_true_eq]
        omega
      · have hq : (d.len - 1) / c.axiStrbWidth = d.len / c.axiStrbWidth := by
          apply Nat.div_eq_of_lt_le
          · rw [Nat.mul_comm]
            omega
          · rw [Nat.succ_mul, Nat.mul_comm]
            omega
        simp only [hz, decide_false, Bool.false_or, decide_eq_decide]
        rw [hq]
        omega
    · exact decide_eq_true rfl

/-- The beats that are left of the descriptor that the stream FSM reads. -/
def readOwed (s : AxiDmaRdState c) : List (BeatShape c.axiStrbWidth) :=
  if s.axis.axisStateReg = .read then tailShapes c s.axis.outputCycleCountReg s.axis.lastCycleOffsetReg else []

/-- The beats of the command. -/
def cmdOwed (s : AxiDmaRdState c) : List (BeatShape c.axiStrbWidth) :=
  if s.axi.axisCmdValidReg then tailShapes c s.axi.axisCmdOutputCycleCountReg s.axi.axisCmdLastCycleOffsetReg
  else []

structure AxisInv (s : AxiDmaRdState c) : Prop where
  read : s.axis.axisStateReg = .read → s.axis.inputActiveReg = true ∧ s.axis.outputActiveReg = true ∧
    s.axis.outputLastCycleReg = decide (s.axis.outputCycleCountReg = 0) ∧
    s.axis.inputCycleCountReg = s.axis.outputCycleCountReg ∧
    s.axis.outputCycleCountReg < 2 ^ (33 - c.axiBurstSize)
  idle : s.axis.axisStateReg = .idle → s.axis.mAxiRreadyReg = false
  cmd : s.axi.axisCmdValidReg = true → s.axi.axisCmdInputCycleCountReg = s.axi.axisCmdOutputCycleCountReg ∧
    s.axi.axisCmdOutputCycleCountReg < 2 ^ (33 - c.axiBurstSize)

/-- A word is taken when a beat is made. -/
lemma AxisInv.tvalidInt_eq {s : AxiDmaRdState c} (h : AxisInv s) :
    s.tvalidInt i = (s.axis.mAxiRreadyReg && i.mAxiRvalid) := by
  cases hs : s.axis.axisStateReg with
  | idle => simp [AxiDmaRdState.tvalidInt, hs, h.idle hs]
  | read => simp [AxiDmaRdState.tvalidInt, hs, (h.read hs).1]

section Step

variable {s : AxiDmaRdState c}

/-- A descriptor that is taken becomes the command. -/
lemma axiNext_accept (hready : s.axi.sAxisReadDescReadyReg = true →
      s.axi.axiStateReg = .idle ∧ s.axi.axisCmdValidReg = false) (hacc : s.descAccept i = true) :
    s.axi.axisCmdValidReg = false ∧ (s.axiNext i).axisCmdValidReg = true ∧
      (s.axiNext i).axisCmdLastCycleOffsetReg = i.sAxisReadDesc.len % 2 ^ c.axiBurstSize ∧
      (s.axiNext i).axisCmdInputCycleCountReg = c.cycleCountNext i.sAxisReadDesc.len ∧
      (s.axiNext i).axisCmdOutputCycleCountReg = c.cycleCountNext i.sAxisReadDesc.len := by
  have hr : s.axi.sAxisReadDescReadyReg = true := by
    simp only [AxiDmaRdState.descAccept, Bool.and_eq_true] at hacc
    exact hacc.1
  obtain ⟨hidle, hcmd⟩ := hready hr
  simp [AxiDmaRdState.axiNext, hidle, hacc, hcmd]

/-- Otherwise the command stays until the stream FSM takes it. -/
lemma axiNext_keep (hacc : s.descAccept i = false) :
    (s.axiNext i).axisCmdValidReg = (s.axi.axisCmdValidReg && !s.axisCmdReady) ∧
      (s.axiNext i).axisCmdLastCycleOffsetReg = s.axi.axisCmdLastCycleOffsetReg ∧
      (s.axiNext i).axisCmdInputCycleCountReg = s.axi.axisCmdInputCycleCountReg ∧
      (s.axiNext i).axisCmdOutputCycleCountReg = s.axi.axisCmdOutputCycleCountReg := by
  unfold AxiDmaRdState.axiNext
  dsimp only
  cases s.axi.axiStateReg with
  | idle => simp [hacc]
  | start => cases s.axi.mAxiArvalidReg <;> simp

theorem AxisInv.step (hready : s.axi.sAxisReadDescReadyReg = true →
      s.axi.axiStateReg = .idle ∧ s.axi.axisCmdValidReg = false) (h : AxisInv s) : AxisInv (s.step i) := by
  refine ⟨fun hr => ?_, fun hidle => ?_, fun hcmd => ?_⟩
  · cases hs : s.axis.axisStateReg with
    | idle =>
      cases hv : s.axi.axisCmdValidReg with
      | false => simp [AxiDmaRdState.step, AxiDmaRdState.axisNext, hs, hv] at hr
      | true =>
        obtain ⟨hin, hlt⟩ := h.cmd hv
        simp [AxiDmaRdState.step, AxiDmaRdState.axisNext, hs, hin, hlt]
    | read =>
      obtain ⟨hia, hoa, hol, hin, hlt⟩ := h.read hs
      cases ht : s.tvalidInt i with
      | false =>
        simp only [AxiDmaRdState.step, AxiDmaRdState.axisNext, hs, ht, Bool.false_eq_true, if_false]
        exact ⟨hia, hoa, hol, hin, hlt⟩
      | true =>
        cases hn : s.axis.outputCycleCountReg with
        | zero =>
          have hlast : s.axis.outputLastCycleReg = true := by simp [hol, hn]
          simp [AxiDmaRdState.step, AxiDmaRdState.axisNext, hs, ht, hlast] at hr
        | succ n =>
          rw [hn] at hlt hin
          have hpred := AxiConfig.cycleCountPred_succ hlt
          simp only [AxiDmaRdState.step, AxiDmaRdState.axisNext, hs, ht, hia, hoa, hin, hn, hpred, if_true]
          exact ⟨by simp, by simp, trivial, trivial, by omega⟩
  · cases hs : s.axis.axisStateReg with
    | idle =>
      cases hv : s.axi.axisCmdValidReg with
      | false => simp [AxiDmaRdState.step, AxiDmaRdState.axisNext, hs, hv]
      | true => simp [AxiDmaRdState.step, AxiDmaRdState.axisNext, hs, hv] at hidle
    | read =>
      cases ht : s.tvalidInt i with
      | false => simp [AxiDmaRdState.step, AxiDmaRdState.axisNext, hs, ht] at hidle
      | true =>
        cases hol : s.axis.outputLastCycleReg with
        | false => simp [AxiDmaRdState.step, AxiDmaRdState.axisNext, hs, ht, hol] at hidle
        | true => simp [AxiDmaRdState.step, AxiDmaRdState.axisNext, hs, ht, hol]
  · show (s.axiNext i).axisCmdInputCycleCountReg = _ ∧ _
    cases hacc : s.descAccept i with
    | true =>
      obtain ⟨-, -, -, hin, hout⟩ := axiNext_accept hready hacc
      rw [hin]
      exact ⟨hout.symm, hout ▸ AxiConfig.cycleCountNext_lt _⟩
    | false =>
      obtain ⟨hv, -, hin, hout⟩ := axiNext_keep hacc
      have hcmd' : (s.axi.axisCmdValidReg && !s.axisCmdReady) = true := hv ▸ hcmd
      rw [Bool.and_eq_true] at hcmd'
      obtain ⟨hsame, hlt⟩ := h.cmd hcmd'.1
      rw [hin]
      exact ⟨hsame.trans hout.symm, hout ▸ hlt⟩

/-- The beats of a descriptor that is taken are owed from then on. -/
def newShapes (s : AxiDmaRdState c) (i : AxiDmaRdInput c) : List (BeatShape c.axiStrbWidth) :=
  if s.descAccept i then i.sAxisReadDesc.shapes c else []

lemma cmdOwed_step (hdesc : DescOk i) (hready : s.axi.sAxisReadDescReadyReg = true →
      s.axi.axiStateReg = .idle ∧ s.axi.axisCmdValidReg = false) :
    cmdOwed (s.step i) = (if s.axisCmdReady then [] else cmdOwed s) ++ newShapes s i := by
  show (if (s.axiNext i).axisCmdValidReg then tailShapes c (s.axiNext i).axisCmdOutputCycleCountReg
    (s.axiNext i).axisCmdLastCycleOffsetReg else []) = _
  unfold newShapes cmdOwed
  cases hacc : s.descAccept i with
  | true =>
    have hv : i.sAxisReadDescValid = true := by
      simp only [AxiDmaRdState.descAccept, Bool.and_eq_true] at hacc
      exact hacc.2
    obtain ⟨hpos, hlt⟩ := hdesc hv
    obtain ⟨hold, hnew, hoff, -, hout⟩ := axiNext_accept hready hacc
    rw [hnew, hoff, hout, hold, if_pos rfl, if_pos rfl, if_neg Bool.false_ne_true, ite_self, List.nil_append]
    exact (shapes_eq _ hpos hlt).symm
  | false =>
    obtain ⟨hv, hoff, -, hout⟩ := axiNext_keep hacc
    rw [hv, hoff, hout]
    cases s.axisCmdReady <;> simp

/-- A beat that is made is the first one owed. -/
theorem owed_step (hdesc : DescOk i) (hready : s.axi.sAxisReadDescReadyReg = true →
      s.axi.axiStateReg = .idle ∧ s.axi.axisCmdValidReg = false) (h : AxisInv s) :
    ∃ b, readOwed s ++ cmdOwed s ++ newShapes s i =
        (if s.tvalidInt i then [b] else []) ++ (readOwed (s.step i) ++ cmdOwed (s.step i)) ∧
      (s.tvalidInt i = true → s.beatInt i = b.beat i.mAxiRdata) := by
  have hcmd := cmdOwed_step hdesc hready
  cases hs : s.axis.axisStateReg with
  | idle =>
    have ht : s.tvalidInt i = false := by simp [AxiDmaRdState.tvalidInt, hs]
    refine ⟨⟨fun _ => true, false⟩, ?_, fun h' => by simp [ht] at h'⟩
    have hread : readOwed (s.step i) = cmdOwed s := by
      unfold readOwed cmdOwed
      cases hv : s.axi.axisCmdValidReg <;> simp [AxiDmaRdState.step, AxiDmaRdState.axisNext, hs, hv]
    have hold : readOwed s = [] := by simp [readOwed, hs]
    rw [hcmd, hread, hold, ht, if_neg Bool.false_ne_true, List.nil_append, List.nil_append]
    cases hv : s.axi.axisCmdValidReg <;> simp [AxiDmaRdState.axisCmdReady, cmdOwed, hs, hv]
  | read =>
    obtain ⟨hia, hoa, hol, hin, hlt⟩ := h.read hs
    have hbusy : s.axisCmdReady = false := by simp [AxiDmaRdState.axisCmdReady, hs]
    rw [hbusy, if_neg Bool.false_ne_true] at hcmd
    rw [hcmd]
    cases ht : s.tvalidInt i with
    | false =>
      refine ⟨⟨fun _ => true, false⟩, ?_, fun h' => by cases h'⟩
      have hread : readOwed (s.step i) = readOwed s := by
        simp [readOwed, AxiDmaRdState.step, AxiDmaRdState.axisNext, hs, ht]
      rw [hread, if_neg Bool.false_ne_true, List.nil_append, List.append_assoc]
    | true =>
      cases hn : s.axis.outputCycleCountReg with
      | zero =>
        have hlast : s.axis.outputLastCycleReg = true := by simp [hol, hn]
        have hread : readOwed (s.step i) = [] := by
          simp [readOwed, AxiDmaRdState.step, AxiDmaRdState.axisNext, hs, ht, hlast]
        have hold : readOwed s = [⟨AxiDmaRdState.tkeepLast c s.axis.lastCycleOffsetReg, true⟩] := by
          simp [readOwed, tailShapes, hs, hn]
        refine ⟨⟨AxiDmaRdState.tkeepLast c s.axis.lastCycleOffsetReg, true⟩, ?_, fun _ => ?_⟩
        · rw [hread, hold, if_pos rfl, List.nil_append, List.append_assoc]
        · simp [AxiDmaRdState.beatInt, hlast, BeatShape.beat]
      | succ n =>
        rw [hn] at hlt
        have hmore : s.axis.outputLastCycleReg = false := by simp [hol, hn]
        have hread : readOwed (s.step i) = tailShapes c n s.axis.lastCycleOffsetReg := by
          simp [readOwed, AxiDmaRdState.step, AxiDmaRdState.axisNext, hs, ht, hmore, hoa, hn, AxiConfig.cycleCountPred_succ hlt]
        have hold : readOwed s = ⟨fun _ => true, false⟩ :: tailShapes c n s.axis.lastCycleOffsetReg := by
          simp [readOwed, tailShapes_succ, hs, hn]
        refine ⟨⟨fun _ => true, false⟩, ?_, fun _ => ?_⟩
        · rw [hread, hold, if_pos rfl, List.cons_append, List.cons_append, List.singleton_append, List.append_assoc]
        · simp [AxiDmaRdState.beatInt, hmore, BeatShape.beat]

end Step

/-! ### The invariant -/

/-- The shapes of all beats of the descriptors taken. -/
def shapes (x : AxiDmaRdSystem c) : List (BeatShape c.axiStrbWidth) := x.accepted.flatMap (AxiDesc.shapes c)

structure Inv (x : AxiDmaRdSystem c) : Prop where
  axi : x.AxiInv
  axis : AxisInv x.engine
  received_le : x.received.length ≤ x.shapes.length
  owed : x.shapes.drop x.received.length = readOwed x.engine ++ cmdOwed x.engine
  queue : ∃ q, x.engine.out.Room AxiDmaRdState.outputFifoAddrWidth x.engine.axis.mAxiRreadyReg q ∧
    x.streamed ++ x.engine.out.pending q = List.zipWith BeatShape.beat x.shapes x.received

lemma rready_of_tvalid {s : AxiDmaRdState c} (h : AxisInv s) (ht : s.tvalidInt i = true) :
    s.axis.mAxiRreadyReg = true := by
  rw [h.tvalidInt_eq, Bool.and_eq_true] at ht
  exact ht.1

/-- The stream FSM asks for a word only when the FIFO was less than half full. -/
lemma rready_next {s : AxiDmaRdState c} (hr : (s.step i).axis.mAxiRreadyReg = true) :
    s.out.outFifoHalfFullReg = false := by
  have hready : s.treadyInt = true := by
    by_contra hnot
    rw [Bool.not_eq_true] at hnot
    cases hs : s.axis.axisStateReg with
    | idle => simp [AxiDmaRdState.step, AxiDmaRdState.axisNext, hs, hnot] at hr
    | read => cases ht : s.tvalidInt i <;> simp [AxiDmaRdState.step, AxiDmaRdState.axisNext, hs, ht, hnot] at hr
  simpa [AxiDmaRdState.treadyInt] using hready

/-- The reader between two descriptors. -/
structure Quiet (s : AxiDmaRdState c) : Prop where
  axi : s.axi.axiStateReg = .idle
  cmd : s.axi.axisCmdValidReg = false
  arvalid : s.axi.mAxiArvalidReg = false
  axis : s.axis.axisStateReg = .idle
  rready : s.axis.mAxiRreadyReg = false
  outFifo : s.out.Stores AxiDmaRdState.outputFifoAddrWidth []
  outValid : s.out.outValidReg = false

lemma reset_quiet (c : AxiConfig) : Quiet (AxiDmaRdState.reset c) :=
  ⟨rfl, rfl, rfl, rfl, rfl, OutFifo.reset_stores _, rfl⟩

theorem Inv.init {s : AxiDmaRdState c} (h : Quiet s) (i : ℕ → AxiDmaRdInput c) : Inv (run s i 0) where
  axi := by
    have hpresented : (run s i 0).presented = [] := by simp [run, presented, h.arvalid]
    refine ⟨?_, ?_, fun hs => ?_, fun _ => ⟨h.axi, h.cmd⟩⟩
    · rw [hpresented, rest, run, h.axi]
      rfl
    · rw [hpresented]
      exact fun b hb => absurd hb List.not_mem_nil
    · exact absurd (h.axi.symm.trans hs) (by simp)
  axis := by
    refine ⟨fun hs => ?_, fun _ => h.rready, fun hv => ?_⟩
    · exact absurd (h.axis.symm.trans hs) (by simp)
    · exact absurd (h.cmd.symm.trans hv) (by simp)
  received_le := le_rfl
  owed := by simp [run, shapes, readOwed, cmdOwed, h.axis, h.cmd]
  queue := by
    refine ⟨[], ⟨h.outFifo, Nat.zero_le _, fun _ => Nat.zero_le _, fun _ => Nat.zero_le _⟩, ?_⟩
    simp [run, OutFifo.pending, h.outValid, shapes]

theorem Inv.step (hdesc : DescOk i) (h : x.Inv) : (x.step i).Inv := by
  obtain ⟨haxi, haxis, hle, howed, q, hroom, hbeats⟩ := h
  obtain ⟨b, hb, hbeat⟩ := owed_step hdesc haxi.ready haxis
  have hshapes : (x.step i).shapes = x.shapes ++ newShapes x.engine i := by
    unfold shapes newShapes
    cases hacc : x.engine.descAccept i <;> simp [AxiDmaRdSystem.step, hacc]
  have hreceived : (x.step i).received = x.received ++ if x.engine.tvalidInt i then [i.mAxiRdata] else [] := by
    rw [haxis.tvalidInt_eq]
    rfl
  have hall : (x.shapes ++ newShapes x.engine i).drop x.received.length =
      (if x.engine.tvalidInt i then [b] else []) ++ (readOwed (x.engine.step i) ++ cmdOwed (x.engine.step i)) := by
    rw [List.drop_append_of_le_length hle, howed, hb]
  have hle' : (x.step i).received.length ≤ (x.step i).shapes.length := by
    have hcount := congrArg List.length hall
    rw [List.length_drop, List.length_append, List.length_append] at hcount
    rw [hshapes, hreceived, List.length_append, List.length_append]
    cases ht : x.engine.tvalidInt i with
    | false =>
      rw [if_neg Bool.false_ne_true, List.length_nil]
      omega
    | true =>
      rw [ht, if_pos rfl, List.length_singleton] at hcount
      rw [if_pos rfl, List.length_singleton]
      omega
  refine ⟨haxi.step hdesc, haxis.step haxi.ready, hle', ?_, _, hroom.step (by decide) (fun ht => .inl
    (rready_of_tvalid haxis ht)) rready_next (x.engine.beatInt i) i.mAxisReadDataTready, ?_⟩
  · rw [hshapes, hreceived]
    cases ht : x.engine.tvalidInt i with
    | false =>
      rw [ht, if_neg Bool.false_ne_true, List.nil_append] at hall
      rw [if_neg Bool.false_ne_true, List.append_nil]
      exact hall
    | true =>
      rw [ht] at hall
      rw [if_pos rfl, List.length_append, ← List.drop_drop, hall]
      rfl
  · have hpend := OutFifo.step_pending hroom.stores (x.engine.tvalidInt i) (x.engine.beatInt i) i.mAxisReadDataTready
    show (x.streamed ++ _) ++ (x.engine.out.step _ _ _ _).pending _ = _
    rw [List.append_assoc, hpend, ← List.append_assoc, hbeats, hshapes, hreceived]
    cases ht : x.engine.tvalidInt i with
    | false =>
      rw [if_neg Bool.false_ne_true, if_neg Bool.false_ne_true, List.append_nil, List.append_nil,
        ZipLog.zipWith_plan_append hle]
    | true =>
      rw [ht] at hall
      rw [if_pos rfl, if_pos rfl, ZipLog.zipWith_log_snoc hall, ZipLog.zipWith_plan_append hle, hbeat ht]

theorem Inv.run {s : AxiDmaRdState c} {i : ℕ → AxiDmaRdInput c} (hquiet : Quiet s) (hdesc : ∀ t, DescOk (i t))
    (t : ℕ) : (run s i t).Inv := by
  induction t with
  | zero => exact Inv.init hquiet i
  | succ t ih => exact ih.step (hdesc t)

end AxiDmaRdSystem

end FpgaPcie
