import FpgaPcie.Lib.Progress
import FpgaPcie.Lib.ZipLog
import FpgaPcie.Rtl.AxiRam

/-!
# Runs of the AXI RAM

Whatever the flags on its channels do, the RAM is a byte memory: it has the stores of the write beats at the words of
the bursts, in order, and each word on the R channel is a word of the memory at some time behind the burst that asked
for it. A master that offers its beats and takes the responses and the words gets every burst through.
-/

namespace FpgaPcie

variable {c : AxiRamConfig}

namespace AxiRamConfig

lemma addrMask_valid (addr : ℕ) : c.addrMask addr = c.axiStrbWidth * c.addrValid addr := by
  rw [AxiConfig.addrMask_eq, addrValid, Nat.shiftRight_eq_div_pow, Nat.mul_comm]

@[simp] lemma beatWords_length (size burst addr n : ℕ) : (c.beatWords size burst addr n).length = n := by
  induction n generalizing addr with
  | zero => rfl
  | succ n ih => rw [beatWords, List.length_cons, ih]

/-- A burst of full words of type INCR. -/
theorem beatWords_incr {burst addr : ℕ} (hburst : burst ≠ 0) (haddr : addr % c.axiStrbWidth = 0) (n : ℕ) :
    c.beatWords c.axiBurstSize burst (addr % 2 ^ c.axiAddrWidth) n = c.wordAddrs addr n := by
  induction n generalizing addr with
  | zero => rfl
  | succ n ih =>
    have hmod : addr % 2 ^ c.axiAddrWidth % c.axiStrbWidth = 0 := by
      rw [Nat.mod_mod_of_dvd _ (AxiConfig.axiStrbWidth_dvd_page.trans c.page_dvd_addr), haddr]
    have hnext : c.addrNext c.axiBurstSize burst (addr % 2 ^ c.axiAddrWidth) =
        (addr + c.axiStrbWidth) % 2 ^ c.axiAddrWidth := by
      rw [addrNext, if_pos hburst, Nat.one_shiftLeft, Nat.mod_add_mod]
    rw [beatWords, hnext, ih (by rw [Nat.add_mod_right, haddr]), AxiConfig.wordAddrs_succ, AxiConfig.addrMask_eq,
      Nat.div_mul_cancel (Nat.dvd_of_mod_eq_zero hmod)]

end AxiRamConfig

namespace AxiRamState

variable {s : AxiRamState c} {i : AxiRamInput c}

/-- A beat is one store to the word of its address. -/
theorem bytes_step : (s.step i).bytes = if s.memWrEn i then
    s.bytes.store ⟨c.addrMask s.write.writeAddrReg, i.sAxiW.wdata, i.sAxiW.wstrb⟩ else s.bytes := by
  funext a
  show s.memNext i (c.addrValid a) (Fin.ofNat c.axiStrbWidth a) = _
  unfold memNext
  split_ifs with hwr
  · have hS := c.axiStrbWidth_pos
    have hdiv := Nat.div_add_mod a c.axiStrbWidth
    have hmod := Nat.mod_lt a hS
    have hvalid : c.addrValid a = a / c.axiStrbWidth := Nat.shiftRight_eq_div_pow _ _
    simp only [CardMem.store, AxiRamConfig.addrMask_valid]
    generalize c.addrValid s.write.writeAddrReg = w
    by_cases hw : c.addrValid a = w
    · -- the byte is in the word
      subst hw
      have hoff : a - c.axiStrbWidth * c.addrValid a = a % c.axiStrbWidth := by
        rw [hvalid]
        omega
      have hle : c.axiStrbWidth * c.addrValid a ≤ a := by
        rw [hvalid]
        omega
      rw [if_pos hle, Function.update_self, CardStore.byte, hoff, dif_pos hmod]
      rfl
    · rw [Function.update_of_ne hw]
      split_ifs with hle
      · have hout : ¬a - c.axiStrbWidth * w < c.axiStrbWidth := by
          intro hlt
          apply hw
          rw [hvalid]
          apply Nat.div_eq_of_lt_le
          · rw [Nat.mul_comm]
            exact hle
          · rw [Nat.succ_mul, Nat.mul_comm]
            omega
        rw [CardStore.byte, dif_neg hout]
        rfl
      · rfl
  · rfl

end AxiRamState

namespace AxiRamState

variable {s : AxiRamState c} {i : AxiRamInput c}

/-- A response is given. -/
def responds (s : AxiRamState c) (i : AxiRamInput c) : Bool :=
  s.respond i && (s.write.writeStateReg == .resp || s.memWrEn i && s.write.writeCountReg == 0)

/-- The beats between the memory and the R channel. -/
def pending (s : AxiRamState c) : List (RBeat c.axiStrbWidth) :=
  (if c.pipelineOutput && s.read.sAxiRvalidPipeReg then [s.read.sAxiRPipeReg] else []) ++
    if s.read.sAxiRvalidReg then [s.read.sAxiRReg] else []

/-- No write burst is under way. -/
structure WriteQuiet (s : AxiRamState c) : Prop where
  write : s.write.writeStateReg = .idle
  wready : s.write.sAxiWreadyReg = false
  bvalid : s.write.sAxiBvalidReg = false

/-- No read burst is under way. -/
structure ReadQuiet (s : AxiRamState c) : Prop where
  read : s.read.readStateReg = .idle
  pending : s.pending = []

/-- No burst is under way. -/
structure Quiet (s : AxiRamState c) : Prop extends WriteQuiet s, ReadQuiet s

lemma reset_quiet (c : AxiRamConfig) : (reset c).Quiet :=
  ⟨⟨rfl, rfl, rfl⟩, ⟨rfl, by simp [AxiRamState.pending, reset]⟩⟩

end AxiRamState

namespace AxiRamSystem

variable {x : AxiRamSystem c} {i : AxiRamInput c} {card : CardMem}

/-! ### Writes -/

/-- The words that are left of the write burst. -/
def writeLeft (x : AxiRamSystem c) : List ℕ :=
  if x.ram.write.writeStateReg = .burst then
    c.beatWords x.ram.write.writeSizeReg x.ram.write.writeBurstReg x.ram.write.writeAddrReg
      (x.ram.write.writeCountReg + 1)
  else []

/-- The responses given, with the one on the B channel. -/
def responses (x : AxiRamSystem c) : ℕ := x.answered + x.ram.write.sAxiBvalidReg.toNat

/-- The burst that has no response on the B channel yet. -/
def unanswered (x : AxiRamSystem c) : ℕ := if x.ram.write.writeStateReg = .idle then 0 else 1

structure WriteInv (card : CardMem) (x : AxiRamSystem c) : Prop where
  words : x.awWords.drop x.wBeats.length = x.writeLeft
  le : x.wBeats.length ≤ x.awWords.length
  count : x.responses + x.unanswered = x.awBursts.length
  done : ((x.awBursts.take x.responses).flatMap (RamBurst.words c)).length ≤ x.wBeats.length
  awready : x.ram.write.sAxiAwreadyReg = true → x.ram.write.writeStateReg = .idle
  wready : x.ram.write.sAxiWreadyReg = decide (x.ram.write.writeStateReg = .burst)
  lt : x.ram.write.writeStateReg = .burst → x.ram.write.writeCountReg < 256
  mem : x.ram.bytes = cardAfter card (storesOf x.awWords x.wBeats)

lemma awWords_step : (x.step i).awWords = x.awWords ++ if x.ram.awAccept i then i.sAxiAw.words c else [] := by
  rw [awWords, awWords, step, List.flatMap_append]
  cases x.ram.awAccept i <;> simp

lemma responses_step : (x.step i).responses = x.responses + (x.ram.responds i).toNat := by
  show x.answered + (x.ram.write.sAxiBvalidReg && i.sAxiBready).toNat + (x.ram.writeNext i).sAxiBvalidReg.toNat =
    x.answered + x.ram.write.sAxiBvalidReg.toNat + _
  unfold AxiRamState.writeNext AxiRamState.responds AxiRamState.memWrEn
  cases hs : x.ram.write.writeStateReg with
  | idle =>
    cases x.ram.awAccept i <;> cases hb : x.ram.write.sAxiBvalidReg <;> cases hr : i.sAxiBready <;>
      simp [AxiRamState.writeDefault, hb, hr]
  | burst =>
    cases x.ram.wAccept i <;> cases x.ram.write.writeCountReg <;> cases hb : x.ram.write.sAxiBvalidReg <;>
      cases hr : i.sAxiBready <;> simp [AxiRamState.writeDefault, AxiRamState.respond, hb, hr]
  | resp =>
    cases hb : x.ram.write.sAxiBvalidReg <;> cases hr : i.sAxiBready <;>
      simp [AxiRamState.writeDefault, AxiRamState.respond, hb, hr]

lemma WriteInv.awAccept_false (h : WriteInv card x) (hs : x.ram.write.writeStateReg ≠ .idle) :
    x.ram.awAccept i = false := by
  cases hr : x.ram.write.sAxiAwreadyReg with
  | false => simp [AxiRamState.awAccept, hr]
  | true => exact absurd (h.awready hr) hs

lemma WriteInv.wAccept_false (h : WriteInv card x) (hs : x.ram.write.writeStateReg ≠ .burst) :
    x.ram.wAccept i = false := by
  rw [AxiRamState.wAccept, h.wready, decide_eq_false hs, Bool.false_and]

lemma WriteInv.memWrEn_eq (h : WriteInv card x) : x.ram.memWrEn i = x.ram.wAccept i := by
  by_cases hs : x.ram.write.writeStateReg = .burst
  · rw [AxiRamState.memWrEn, hs]
    rfl
  · rw [AxiRamState.memWrEn, h.wAccept_false hs, Bool.and_false]

/-- A beat goes to the next word of the bursts. -/
theorem WriteInv.mem_step (h : WriteInv card x) :
    (x.step i).ram.bytes = cardAfter card (storesOf (x.step i).awWords (x.step i).wBeats) := by
  have hbytes := AxiRamState.bytes_step (s := x.ram) (i := i)
  show (x.ram.step i).bytes = _
  rw [hbytes, h.memWrEn_eq]
  cases hw : x.ram.wAccept i with
  | false =>
    have hsame : storesOf (x.step i).awWords x.wBeats = storesOf x.awWords x.wBeats := by
      rw [awWords_step, storesOf, storesOf]
      exact ZipLog.zipWith_plan_append h.le _
    rw [if_neg Bool.false_ne_true, h.mem, ← hsame]
    simp [step, hw]
  | true =>
    have hs : x.ram.write.writeStateReg = .burst := by
      by_contra hs
      rw [h.wAccept_false hs] at hw
      cases hw
    have hplan : (x.step i).awWords = x.awWords := by
      rw [awWords_step, h.awAccept_false (by simp [hs]), if_neg Bool.false_ne_true, List.append_nil]
    have hnext := h.words
    rw [writeLeft, if_pos hs, AxiRamConfig.beatWords] at hnext
    have hlog : (x.step i).wBeats = x.wBeats ++ [i.sAxiW] := by simp [step, hw]
    rw [if_pos rfl, hplan, hlog, storesOf, ZipLog.zipWith_log_snoc hnext, cardAfter, List.foldl_append, h.mem]
    rfl

/-- A response is given when its burst is stored. -/
lemma WriteInv.done_step (h : WriteInv card x)
    (hall : x.ram.responds i = true → (x.step i).awWords.length ≤ (x.step i).wBeats.length) :
    (((x.step i).awBursts.take (x.step i).responses).flatMap (RamBurst.words c)).length ≤ (x.step i).wBeats.length := by
  cases hr : x.ram.responds i with
  | false =>
    have hle : x.responses ≤ x.awBursts.length := by
      rw [← h.count]
      exact Nat.le_add_right _ _
    have hbeats : x.wBeats.length ≤ (x.step i).wBeats.length := by
      rw [step, List.length_append]
      exact Nat.le_add_right _ _
    rw [responses_step, hr, Bool.toNat_false, Nat.add_zero, step, List.take_append_of_le_length hle]
    exact h.done.trans hbeats
  | true =>
    refine le_trans ?_ (hall hr)
    exact ((List.take_sublist _ _).flatMap _).length_le

lemma WriteInv.step_idle (h : WriteInv card x) (hs : x.ram.write.writeStateReg = .idle) : WriteInv card (x.step i) := by
  have hw : x.ram.wAccept i = false := h.wAccept_false (by simp [hs])
  have hrespond : x.ram.responds i = false := by simp [AxiRamState.responds, AxiRamState.memWrEn, hs]
  have hdone := h.done_step (i := i) fun hr => absurd (hrespond.symm.trans hr) Bool.false_ne_true
  have hstate : (x.step i).ram.write = x.ram.writeNext i := rfl
  have hbeats : (x.step i).wBeats = x.wBeats := by simp [step, hw]
  have hwords := h.words
  rw [writeLeft, if_neg (by simp [hs]), List.drop_eq_nil_iff] at hwords
  have hlen : x.wBeats.length = x.awWords.length := le_antisymm h.le hwords
  have hcount := h.count
  rw [unanswered, if_pos hs, Nat.add_zero] at hcount
  cases ha : x.ram.awAccept i with
  | false =>
    have hplan : (x.step i).awWords = x.awWords := by simp [awWords_step, ha]
    have hbursts : (x.step i).awBursts = x.awBursts := by simp [step, ha]
    have hnext : x.ram.writeNext i = { x.ram.writeDefault i with sAxiAwreadyReg := true } := by
      simp [AxiRamState.writeNext, hs, ha]
    have hkeep : (x.ram.writeNext i).writeStateReg = .idle := by
      rw [hnext]
      exact hs
    refine ⟨?_, ?_, ?_, hdone, fun _ => hkeep, ?_, fun hb => ?_, h.mem_step⟩
    · rw [hplan, hbeats, writeLeft, hstate, hkeep, hlen, List.drop_length]
      rfl
    · rw [hplan, hbeats]
      exact h.le
    · rw [responses_step, hrespond, hbursts, unanswered, hstate, hkeep, if_pos rfl, hcount]
      rfl
    · rw [hstate, hkeep, hnext]
      rfl
    · exact absurd (hkeep.symm.trans hb) (by simp)
  | true =>
    have hplan : (x.step i).awWords = x.awWords ++ i.sAxiAw.words c := by simp [awWords_step, ha]
    have hbursts : (x.step i).awBursts = x.awBursts ++ [i.sAxiAw] := by simp [step, ha]
    have hopen : (x.ram.writeNext i).writeStateReg = .burst := by simp [AxiRamState.writeNext, hs, ha]
    refine ⟨?_, ?_, ?_, hdone, fun hr => ?_, ?_, fun _ => ?_, h.mem_step⟩
    · rw [hplan, hbeats, hlen, List.drop_left, writeLeft, hstate, if_pos hopen]
      simp [AxiRamState.writeNext, hs, ha, RamBurst.words]
    · rw [hplan, hbeats, List.length_append]
      omega
    · rw [responses_step, hrespond, hbursts, unanswered, hstate, hopen, List.length_append, hcount]
      rfl
    · rw [hstate] at hr
      simp [AxiRamState.writeNext, AxiRamState.writeDefault, hs, ha] at hr
    · rw [hstate, hopen]
      simp [AxiRamState.writeNext, hs, ha]
    · rw [hstate]
      simp only [AxiRamState.writeNext, hs, ha, if_true]
      exact Nat.mod_lt _ (by norm_num)

lemma WriteInv.step_burst (h : WriteInv card x) (hs : x.ram.write.writeStateReg = .burst) : WriteInv card (x.step i) := by
  have ha : x.ram.awAccept i = false := h.awAccept_false (by simp [hs])
  have hstate : (x.step i).ram.write = x.ram.writeNext i := rfl
  have hplan : (x.step i).awWords = x.awWords := by simp [awWords_step, ha]
  have hbursts : (x.step i).awBursts = x.awBursts := by simp [step, ha]
  have hlt := h.lt hs
  have hcount := h.count
  rw [unanswered, if_neg (by simp [hs])] at hcount
  have hwords := h.words
  rw [writeLeft, if_pos hs] at hwords
  cases hw : x.ram.wAccept i with
  | false =>
    have hbeats : (x.step i).wBeats = x.wBeats := by simp [step, hw]
    have hrespond : x.ram.responds i = false := by simp [AxiRamState.responds, AxiRamState.memWrEn, hs, hw]
    have hnext : x.ram.writeNext i = { x.ram.writeDefault i with sAxiWreadyReg := true } := by
      simp [AxiRamState.writeNext, hs, hw]
    have hkeep : (x.ram.writeNext i).writeStateReg = .burst := by
      rw [hnext]
      exact hs
    refine ⟨?_, ?_, ?_, h.done_step fun hr => absurd (hrespond.symm.trans hr) Bool.false_ne_true, fun hr => ?_, ?_,
      fun _ => ?_, h.mem_step⟩
    · rw [hplan, hbeats, hwords, writeLeft, hstate, if_pos hkeep, hnext]
      rfl
    · rw [hplan, hbeats]
      exact h.le
    · rw [responses_step, hrespond, hbursts, unanswered, hstate, hkeep]
      exact hcount
    · rw [hstate, hnext] at hr
      exact absurd hr Bool.false_ne_true
    · rw [hstate, hkeep, hnext]
      rfl
    · rw [hstate, hnext]
      exact hlt
  | true =>
    have hbeats : (x.step i).wBeats = x.wBeats ++ [i.sAxiW] := by simp [step, hw]
    have hlen : (x.step i).wBeats.length = x.wBeats.length + 1 := by rw [hbeats, List.length_append]; rfl
    rw [AxiRamConfig.beatWords] at hwords
    have hrest : x.awWords.drop (x.wBeats.length + 1) = c.beatWords x.ram.write.writeSizeReg x.ram.write.writeBurstReg
        (c.addrNext x.ram.write.writeSizeReg x.ram.write.writeBurstReg x.ram.write.writeAddrReg)
        x.ram.write.writeCountReg := by
      rw [← List.drop_drop, hwords]
      rfl
    have hmore : x.wBeats.length + 1 ≤ x.awWords.length := by
      have hpos := congrArg List.length hwords
      rw [List.length_drop, List.length_cons] at hpos
      omega
    cases hn : x.ram.write.writeCountReg with
    | zero =>
      rw [hn, AxiRamConfig.beatWords, List.drop_eq_nil_iff] at hrest
      have hall : (x.step i).awWords.length ≤ (x.step i).wBeats.length := by
        rw [hplan, hlen]
        exact hrest
      have hresponds : x.ram.responds i = x.ram.respond i := by
        simp [AxiRamState.responds, AxiRamState.memWrEn, hs, hw, hn]
      have hnext : (x.ram.writeNext i).writeStateReg = if x.ram.respond i then .idle else .resp := by
        cases hr : x.ram.respond i <;> simp [AxiRamState.writeNext, hs, hw, hn, hr]
      have hclosed : (x.ram.writeNext i).writeStateReg ≠ .burst := by
        rw [hnext]
        cases x.ram.respond i <;> simp
      refine ⟨?_, ?_, ?_, h.done_step fun _ => hall, fun hr => ?_, ?_, fun hb => absurd hb hclosed, h.mem_step⟩
      · rw [writeLeft, hstate, if_neg hclosed, List.drop_eq_nil_iff]
        exact hall
      · rw [hplan, hlen]
        exact hmore
      · rw [responses_step, hresponds, hbursts, unanswered, hstate, hnext, ← hcount]
        cases x.ram.respond i <;> rfl
      · rw [hstate] at hr ⊢
        rw [hnext]
        cases hb : x.ram.respond i with
        | true => rfl
        | false => simp [AxiRamState.writeNext, AxiRamState.writeDefault, hs, hw, hn, hb] at hr
      · rw [hstate, decide_eq_false hclosed]
        cases hb : x.ram.respond i <;> simp [AxiRamState.writeNext, AxiRamState.writeDefault, hs, hw, hn, hb]
    | succ n =>
      rw [hn] at hrest hlt
      have hpred : (n + 1 + 255) % 256 = n := by omega
      have hrespond : x.ram.responds i = false := by simp [AxiRamState.responds, hs, hn]
      have hkeep : (x.ram.writeNext i).writeStateReg = .burst := by
        simp [AxiRamState.writeNext, AxiRamState.writeDefault, hs, hw, hn]
      refine ⟨?_, ?_, ?_, h.done_step fun hr => absurd (hrespond.symm.trans hr) Bool.false_ne_true, fun hr => ?_, ?_,
        fun _ => ?_, h.mem_step⟩
      · rw [hplan, hlen, hrest, writeLeft, hstate, if_pos hkeep]
        simp [AxiRamState.writeNext, AxiRamState.writeDefault, hs, hw, hn, hpred]
      · rw [hplan, hlen]
        exact hmore
      · rw [responses_step, hrespond, hbursts, unanswered, hstate, hkeep]
        exact hcount
      · rw [hstate] at hr
        simp [AxiRamState.writeNext, AxiRamState.writeDefault, hs, hw, hn] at hr
      · rw [hstate, hkeep]
        simp [AxiRamState.writeNext, hs, hw, hn]
      · rw [hstate]
        simp only [AxiRamState.writeNext, hs, hw, hn, Nat.succ_pos, if_true]
        omega

lemma WriteInv.step_resp (h : WriteInv card x) (hs : x.ram.write.writeStateReg = .resp) : WriteInv card (x.step i) := by
  have ha : x.ram.awAccept i = false := h.awAccept_false (by simp [hs])
  have hw : x.ram.wAccept i = false := h.wAccept_false (by simp [hs])
  have hstate : (x.step i).ram.write = x.ram.writeNext i := rfl
  have hplan : (x.step i).awWords = x.awWords := by simp [awWords_step, ha]
  have hbursts : (x.step i).awBursts = x.awBursts := by simp [step, ha]
  have hbeats : (x.step i).wBeats = x.wBeats := by simp [step, hw]
  have hcount := h.count
  rw [unanswered, if_neg (by simp [hs])] at hcount
  have hwords := h.words
  rw [writeLeft, if_neg (by simp [hs])] at hwords
  have hall : (x.step i).awWords.length ≤ (x.step i).wBeats.length := by
    rw [hplan, hbeats]
    exact List.drop_eq_nil_iff.mp hwords
  have hresponds : x.ram.responds i = x.ram.respond i := by simp [AxiRamState.responds, hs]
  have hnext : (x.ram.writeNext i).writeStateReg = if x.ram.respond i then .idle else .resp := by
    cases hr : x.ram.respond i <;> simp [AxiRamState.writeNext, AxiRamState.writeDefault, hs, hr]
  have hclosed : (x.ram.writeNext i).writeStateReg ≠ .burst := by
    rw [hnext]
    cases x.ram.respond i <;> simp
  refine ⟨?_, ?_, ?_, h.done_step fun _ => hall, fun hr => ?_, ?_, fun hb => absurd hb hclosed, h.mem_step⟩
  · rw [writeLeft, hstate, if_neg hclosed, List.drop_eq_nil_iff]
    exact hall
  · rw [hplan, hbeats]
    exact h.le
  · rw [responses_step, hresponds, hbursts, unanswered, hstate, hnext, ← hcount]
    cases x.ram.respond i <;> rfl
  · rw [hstate] at hr ⊢
    rw [hnext]
    cases hb : x.ram.respond i with
    | true => rfl
    | false => simp [AxiRamState.writeNext, AxiRamState.writeDefault, hs, hb] at hr
  · rw [hstate, decide_eq_false hclosed]
    cases hb : x.ram.respond i <;> simp [AxiRamState.writeNext, AxiRamState.writeDefault, hs, hb]

theorem WriteInv.step (h : WriteInv card x) : WriteInv card (x.step i) := by
  cases hs : x.ram.write.writeStateReg with
  | idle => exact h.step_idle hs
  | burst => exact h.step_burst hs
  | resp => exact h.step_resp hs

/-! ### Reads -/

/-- The words that are left of the read burst. -/
def readLeft (x : AxiRamSystem c) : List ℕ :=
  if x.ram.read.readStateReg = .burst then
    c.beatWords x.ram.read.readSizeReg x.ram.read.readBurstReg x.ram.read.readAddrReg (x.ram.read.readCountReg + 1)
  else []

/-- The `rlast` flags that are left of the read burst. -/
def lastsLeft (x : AxiRamSystem c) : List Bool :=
  if x.ram.read.readStateReg = .burst then List.replicate x.ram.read.readCountReg false ++ [true] else []

structure ReadInv (x : AxiRamSystem c) : Prop where
  words : x.arWords.drop x.fetched.length = x.readLeft
  le : x.fetched.length ≤ x.arWords.length
  lasts : x.fetched.map RBeat.rlast ++ x.lastsLeft = x.arBursts.flatMap RamBurst.lastFlags
  beats : x.delivered ++ x.ram.pending = x.fetched
  arready : x.ram.read.sAxiArreadyReg = true → x.ram.read.readStateReg = .idle
  lt : x.ram.read.readStateReg = .burst → x.ram.read.readCountReg < 256

lemma arWords_step : (x.step i).arWords = x.arWords ++ if x.ram.arAccept i then i.sAxiAr.words c else [] := by
  rw [arWords, arWords, step, List.flatMap_append]
  cases x.ram.arAccept i <;> simp

lemma readNext_beat (s : AxiRamState c) :
    (s.readNext i).sAxiRvalidReg = (s.memRdEn i || s.read.sAxiRvalidReg && !s.advances i) ∧
    (s.readNext i).sAxiRReg = (if s.memRdEn i then s.fetch else s.read.sAxiRReg) ∧
    (s.readNext i).sAxiRvalidPipeReg = (s.readDefault i).sAxiRvalidPipeReg ∧
    (s.readNext i).sAxiRPipeReg = (s.readDefault i).sAxiRPipeReg := by
  unfold AxiRamState.readNext
  cases hs : s.read.readStateReg with
  | idle =>
    have hrd : s.memRdEn i = false := by simp [AxiRamState.memRdEn, hs]
    rw [hrd]
    cases s.arAccept i <;> exact ⟨rfl, rfl, rfl, rfl⟩
  | burst => cases s.memRdEn i <;> exact ⟨rfl, rfl, rfl, rfl⟩

/-- No beat is lost on the way to the R channel. -/
theorem pending_step (s : AxiRamState c) (i : AxiRamInput c) :
    (if s.sAxiRvalid && i.sAxiRready then [s.sAxiR] else []) ++ (s.step i).pending =
      s.pending ++ if s.memRdEn i then [s.fetch] else [] := by
  have hroom : s.memRdEn i = true → s.advances i = true ∨ s.read.sAxiRvalidReg = false := by
    intro hrd
    simp only [AxiRamState.memRdEn, Bool.and_eq_true, Bool.or_eq_true, Bool.not_eq_true'] at hrd
    exact hrd.2
  obtain ⟨hvalid, hreg, hvalidPipe, hpipe⟩ := readNext_beat (i := i) s
  show _ ++ ((if c.pipelineOutput && (s.readNext i).sAxiRvalidPipeReg then [(s.readNext i).sAxiRPipeReg] else []) ++
    if (s.readNext i).sAxiRvalidReg then [(s.readNext i).sAxiRReg] else []) = _
  rw [hvalid, hreg, hvalidPipe, hpipe]
  unfold AxiRamState.pending AxiRamState.readDefault AxiRamState.sAxiRvalid AxiRamState.sAxiR
  unfold AxiRamState.advances at hroom ⊢
  -- the cases are the flags of the two registers and of the consumer
  cases hp : c.pipelineOutput <;> cases hrd : s.memRdEn i <;> cases hv : s.read.sAxiRvalidReg <;>
    cases hv' : s.read.sAxiRvalidPipeReg <;> cases hr : i.sAxiRready <;> simp_all

lemma ReadInv.arAccept_false (h : ReadInv x) (hs : x.ram.read.readStateReg = .burst) : x.ram.arAccept i = false := by
  cases hr : x.ram.read.sAxiArreadyReg with
  | false => simp [AxiRamState.arAccept, hr]
  | true => exact absurd ((h.arready hr).symm.trans hs) (by simp)

lemma ReadInv.beats_step (h : ReadInv x) : (x.step i).delivered ++ (x.step i).ram.pending = (x.step i).fetched := by
  have hpending := pending_step x.ram i
  show (x.delivered ++ _) ++ (x.ram.step i).pending = x.fetched ++ _
  rw [List.append_assoc, hpending, ← List.append_assoc, h.beats]

lemma ReadInv.step_idle (h : ReadInv x) (hs : x.ram.read.readStateReg = .idle) : ReadInv (x.step i) := by
  have hrd : x.ram.memRdEn i = false := by simp [AxiRamState.memRdEn, hs]
  have hstate : (x.step i).ram.read = x.ram.readNext i := rfl
  have hfetched : (x.step i).fetched = x.fetched := by simp [step, hrd]
  have hwords := h.words
  rw [readLeft, if_neg (by simp [hs]), List.drop_eq_nil_iff] at hwords
  have hlen : x.fetched.length = x.arWords.length := le_antisymm h.le hwords
  have hlasts := h.lasts
  rw [lastsLeft, if_neg (by simp [hs]), List.append_nil] at hlasts
  cases ha : x.ram.arAccept i with
  | false =>
    have hplan : (x.step i).arWords = x.arWords := by simp [arWords_step, ha]
    have hbursts : (x.step i).arBursts = x.arBursts := by simp [step, ha]
    have hkeep : (x.ram.readNext i).readStateReg = .idle := by simp [AxiRamState.readNext, AxiRamState.readDefault, hs, ha]
    refine ⟨?_, ?_, ?_, h.beats_step, fun _ => hkeep, fun hb => absurd (hkeep.symm.trans hb) (by simp)⟩
    · rw [hplan, hfetched, readLeft, hstate, hkeep, hlen, List.drop_length]
      rfl
    · rw [hplan, hfetched]
      exact h.le
    · rw [hbursts, hfetched, lastsLeft, hstate, hkeep, hlasts]
      exact List.append_nil _
  | true =>
    have hplan : (x.step i).arWords = x.arWords ++ i.sAxiAr.words c := by simp [arWords_step, ha]
    have hbursts : (x.step i).arBursts = x.arBursts ++ [i.sAxiAr] := by simp [step, ha]
    have hopen : (x.ram.readNext i).readStateReg = .burst := by simp [AxiRamState.readNext, hs, ha]
    refine ⟨?_, ?_, ?_, h.beats_step, fun hr => ?_, fun _ => ?_⟩
    · rw [hplan, hfetched, hlen, List.drop_left, readLeft, hstate, if_pos hopen]
      simp [AxiRamState.readNext, hs, ha, RamBurst.words]
    · rw [hplan, hfetched, List.length_append]
      omega
    · rw [hbursts, hfetched, lastsLeft, hstate, if_pos hopen, hlasts, List.flatMap_append, List.flatMap_singleton]
      simp [AxiRamState.readNext, hs, ha, RamBurst.lastFlags]
    · rw [hstate] at hr
      simp [AxiRamState.readNext, AxiRamState.readDefault, hs, ha] at hr
    · rw [hstate]
      simp only [AxiRamState.readNext, hs, ha, if_true]
      exact Nat.mod_lt _ (by norm_num)

lemma ReadInv.step_burst (h : ReadInv x) (hs : x.ram.read.readStateReg = .burst) : ReadInv (x.step i) := by
  have ha := h.arAccept_false (i := i) hs
  have hstate : (x.step i).ram.read = x.ram.readNext i := rfl
  have hplan : (x.step i).arWords = x.arWords := by simp [arWords_step, ha]
  have hbursts : (x.step i).arBursts = x.arBursts := by simp [step, ha]
  have hlt := h.lt hs
  have hwords := h.words
  rw [readLeft, if_pos hs] at hwords
  have hlasts := h.lasts
  rw [lastsLeft, if_pos hs] at hlasts
  cases hrd : x.ram.memRdEn i with
  | false =>
    have hfetched : (x.step i).fetched = x.fetched := by simp [step, hrd]
    have hnext : x.ram.readNext i = x.ram.readDefault i := by simp [AxiRamState.readNext, hs, hrd]
    have hkeep : (x.ram.readDefault i).readStateReg = .burst := hs
    refine ⟨?_, ?_, ?_, h.beats_step, fun hr => ?_, fun _ => ?_⟩
    · rw [hplan, hfetched, hwords, readLeft, hstate, hnext, if_pos hkeep]
      rfl
    · rw [hplan, hfetched]
      exact h.le
    · rw [hbursts, hfetched, lastsLeft, hstate, hnext, if_pos hkeep]
      exact hlasts
    · rw [hstate, hnext] at hr
      exact absurd hr Bool.false_ne_true
    · rw [hstate, hnext]
      exact hlt
  | true =>
    have hfetched : (x.step i).fetched = x.fetched ++ [x.ram.fetch] := by simp [step, hrd]
    have hlen : (x.step i).fetched.length = x.fetched.length + 1 := by rw [hfetched, List.length_append]; rfl
    rw [AxiRamConfig.beatWords] at hwords
    have hrest : x.arWords.drop (x.fetched.length + 1) = c.beatWords x.ram.read.readSizeReg x.ram.read.readBurstReg
        (c.addrNext x.ram.read.readSizeReg x.ram.read.readBurstReg x.ram.read.readAddrReg) x.ram.read.readCountReg := by
      rw [← List.drop_drop, hwords]
      rfl
    have hmore : x.fetched.length + 1 ≤ x.arWords.length := by
      have hpos := congrArg List.length hwords
      rw [List.length_drop, List.length_cons] at hpos
      omega
    have hlast : x.ram.fetch.rlast = decide (x.ram.read.readCountReg = 0) := rfl
    cases hn : x.ram.read.readCountReg with
    | zero =>
      rw [hn, AxiRamConfig.beatWords, List.drop_eq_nil_iff] at hrest
      have hclosed : (x.ram.readNext i).readStateReg = .idle := by simp [AxiRamState.readNext, hs, hrd, hn]
      refine ⟨?_, ?_, ?_, h.beats_step, fun _ => hclosed, fun hb => absurd (hclosed.symm.trans hb) (by simp)⟩
      · rw [hplan, hlen, readLeft, hstate, hclosed, if_neg (by simp), List.drop_eq_nil_iff]
        exact hrest
      · rw [hplan, hlen]
        exact hmore
      · rw [hbursts, hfetched, List.map_append, List.map_singleton, hlast, lastsLeft, hstate, hclosed, ← hlasts, hn]
        simp
    | succ n =>
      rw [hn] at hrest hlasts hlt
      have hpred : (n + 1 + 255) % 256 = n := by omega
      have hkeep : (x.ram.readNext i).readStateReg = .burst := by simp [AxiRamState.readNext, hs, hrd, hn]
      refine ⟨?_, ?_, ?_, h.beats_step, fun hr => ?_, fun _ => ?_⟩
      · rw [hplan, hlen, hrest, readLeft, hstate, if_pos hkeep]
        simp [AxiRamState.readNext, AxiRamState.readDefault, hs, hrd, hn, hpred]
      · rw [hplan, hlen]
        exact hmore
      · rw [hbursts, hfetched, List.map_append, List.map_singleton, hlast, lastsLeft, hstate, if_pos hkeep, ← hlasts, hn]
        simp [AxiRamState.readNext, hs, hrd, hn, hpred, List.replicate_succ]
      · rw [hstate] at hr
        simp [AxiRamState.readNext, hs, hrd, hn] at hr
      · rw [hstate]
        simp only [AxiRamState.readNext, hs, hrd, hn, if_true]
        omega

theorem ReadInv.step (h : ReadInv x) : ReadInv (x.step i) := by
  cases hs : x.ram.read.readStateReg with
  | idle => exact h.step_idle hs
  | burst => exact h.step_burst hs

/-! ### Runs -/

section Runs

variable {s : AxiRamState c} {i : ℕ → AxiRamInput c}

theorem WriteInv.run (hquiet : s.WriteQuiet) (t : ℕ) : WriteInv s.bytes (run s i t) := by
  induction t with
  | zero =>
    have hidle : (AxiRamSystem.run s i 0).ram.write.writeStateReg = .idle := hquiet.write
    refine ⟨?_, le_rfl, ?_, ?_, fun _ => hidle, ?_, fun hb => absurd (hidle.symm.trans hb) (by simp), rfl⟩
    · rw [writeLeft, hidle]
      rfl
    · rw [responses, unanswered, hidle]
      simp [AxiRamSystem.run, hquiet.bvalid]
    · simp [AxiRamSystem.run]
    · rw [hidle]
      exact hquiet.wready
  | succ t ih => exact ih.step

theorem ReadInv.run (hquiet : s.ReadQuiet) (t : ℕ) : ReadInv (run s i t) := by
  induction t with
  | zero =>
    have hidle : (AxiRamSystem.run s i 0).ram.read.readStateReg = .idle := hquiet.read
    refine ⟨?_, le_rfl, ?_, ?_, fun _ => hidle, fun hb => absurd (hidle.symm.trans hb) (by simp)⟩
    · rw [readLeft, hidle]
      rfl
    · rw [lastsLeft, hidle]
      rfl
    · exact hquiet.pending
  | succ t ih => exact ih.step

end Runs

end AxiRamSystem

end FpgaPcie
