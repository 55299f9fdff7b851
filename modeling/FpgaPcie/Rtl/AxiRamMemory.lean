import FpgaPcie.Rtl.AxiRamRun
import FpgaPcie.Rtl.AxiWr

/-!
# The AXI RAM as a memory

The RAM has the stores of the write beats at any time, and gives a response only when its burst is stored. Each word
on the R channel is a word of the memory at one time between its burst and its beat, in the order of the bursts. With
a master that offers its beats and takes the responses and the words, every burst gets through.
-/

namespace FpgaPcie

variable {c : AxiRamConfig}

namespace AxiRamState

variable {s : AxiRamState c} {i : AxiRamInput c}

/-- A word of the memory, byte by byte. -/
lemma cardWord_bytes (s : AxiRamState c) (a : ℕ) :
    cardWord c.toAxiConfig s.bytes (c.addrMask a) = s.mem (c.addrValid a) := by
  funext j
  have hword : c.addrValid (c.addrMask a + j) = c.addrValid a := by
    rw [AxiRamConfig.addrMask_valid, AxiRamConfig.addrValid, Nat.shiftRight_eq_div_pow]
    exact (Nat.mul_add_div c.axiStrbWidth_pos _ _).trans (by rw [Nat.div_eq_of_lt j.isLt, Nat.add_zero])
  have hlane : Fin.ofNat c.axiStrbWidth (c.addrMask a + j) = j := by
    apply Fin.ext
    rw [AxiRamConfig.addrMask_valid]
    exact (Nat.mul_add_mod _ _ _).trans (Nat.mod_eq_of_lt j.isLt)
  show s.mem (c.addrValid (c.addrMask a + j)) (Fin.ofNat c.axiStrbWidth (c.addrMask a + j)) = _
  rw [hword, hlane]

/-- A response stays until it is taken. -/
lemma bvalid_held (hv : s.write.sAxiBvalidReg = true) (hr : i.sAxiBready = false) :
    (s.writeNext i).sAxiBvalidReg = true := by
  have hdefault : (s.writeDefault i).sAxiBvalidReg = true := by simp [writeDefault, hv, hr]
  unfold writeNext
  cases s.write.writeStateReg with
  | idle => split_ifs <;> exact hdefault
  | burst =>
    dsimp only
    split_ifs <;> first | exact hdefault | rfl
  | resp => split_ifs <;> first | exact hdefault | rfl

/-- A word stays on the R channel until it is taken. -/
lemma rvalid_held (hv : s.sAxiRvalid = true) (hr : i.sAxiRready = false) :
    (s.step i).sAxiRvalid = true ∧ (s.step i).sAxiR = s.sAxiR := by
  obtain ⟨hvalid, hreg, hvalidPipe, hpipe⟩ := AxiRamSystem.readNext_beat (i := i) s
  unfold sAxiRvalid at hv ⊢
  unfold sAxiR
  show (if c.pipelineOutput then (s.readNext i).sAxiRvalidPipeReg else (s.readNext i).sAxiRvalidReg) = true ∧
    (if c.pipelineOutput then (s.readNext i).sAxiRPipeReg else (s.readNext i).sAxiRReg) = _
  rw [hvalid, hreg, hvalidPipe, hpipe]
  cases hp : c.pipelineOutput with
  | false =>
    rw [hp, if_neg Bool.false_ne_true] at hv
    simp [memRdEn, advances, hp, hv, hr]
  | true =>
    rw [hp, if_pos rfl] at hv
    simp [readDefault, hv, hr]

lemma pending_head (hv : s.sAxiRvalid = true) : s.pending[0]? = some s.sAxiR := by
  unfold sAxiRvalid at hv
  unfold pending sAxiR
  cases hp : c.pipelineOutput <;> simp_all

/-- A beat behind the memory comes to the R channel. -/
lemma rvalid_next (hne : s.pending ≠ []) : s.sAxiRvalid = true ∨ (s.step i).sAxiRvalid = true := by
  obtain ⟨-, -, hvalidPipe, -⟩ := AxiRamSystem.readNext_beat (i := i) s
  unfold pending at hne
  unfold sAxiRvalid
  show _ ∨ (if c.pipelineOutput then (s.readNext i).sAxiRvalidPipeReg else (s.readNext i).sAxiRvalidReg) = true
  rw [hvalidPipe]
  cases hp : c.pipelineOutput with
  | false =>
    left
    rw [if_neg Bool.false_ne_true]
    by_contra hv
    rw [hp, Bool.false_and, if_neg Bool.false_ne_true, if_neg hv] at hne
    exact hne rfl
  | true =>
    cases hv : s.read.sAxiRvalidPipeReg with
    | true => exact .inl rfl
    | false =>
      right
      by_contra hv'
      simp [readDefault, hv] at hv'
      simp [hp, hv, hv'] at hne

end AxiRamState

namespace AxiRamSystem

/-! ### Words -/

lemma ReadInv.fetch_word {x : AxiRamSystem c} {i : AxiRamInput c} (h : ReadInv x) (hrd : x.ram.memRdEn i = true) :
    ∃ a, x.arWords[x.fetched.length]? = some a ∧ x.ram.fetch.rdata = cardWord c.toAxiConfig x.ram.bytes a := by
  have hs : x.ram.read.readStateReg = .burst := by
    simp only [AxiRamState.memRdEn, Bool.and_eq_true, beq_iff_eq] at hrd
    exact hrd.1
  have hwords := h.words
  rw [readLeft, if_pos hs, AxiRamConfig.beatWords] at hwords
  refine ⟨c.addrMask x.ram.read.readAddrReg, ?_, (AxiRamState.cardWord_bytes _ _).symm⟩
  rw [← List.head?_drop, hwords]
  rfl

section Runs

variable {s : AxiRamState c} {i : ℕ → AxiRamInput c}

/-- Each word is read once, at a time when it is asked for. -/
theorem fetched_words (hquiet : s.ReadQuiet) {t k : ℕ} {w : RBeat c.axiStrbWidth} (hk : (run s i t).fetched[k]? = some w) :
    ∃ u, u < t ∧ (run s i u).fetched.length = k ∧
      ∃ a, (run s i u).arWords[k]? = some a ∧ w.rdata = cardWord c.toAxiConfig (run s i u).ram.bytes a := by
  induction t with
  | zero => simp [run] at hk
  | succ t ih =>
    by_cases hlt : k < (run s i t).fetched.length
    · rw [run, step, List.getElem?_append_left hlt] at hk
      obtain ⟨u, hu, hword⟩ := ih hk
      exact ⟨u, Nat.lt_succ_of_lt hu, hword⟩
    · rw [run, step, List.getElem?_append_right (Nat.not_lt.mp hlt)] at hk
      cases hrd : (run s i t).ram.memRdEn (i t) with
      | false => simp [hrd] at hk
      | true =>
        rw [hrd, if_pos rfl] at hk
        obtain ⟨hzero, hw⟩ := List.getElem?_eq_some_iff.mp hk
        rw [List.length_singleton] at hzero
        have hlen : (run s i t).fetched.length = k := by omega
        obtain ⟨a, ha, hdata⟩ := (ReadInv.run hquiet t).fetch_word hrd
        rw [List.getElem_singleton] at hw
        rw [hlen] at ha
        exact ⟨t, Nat.lt_succ_self t, hlen, a, ha, hw ▸ hdata⟩

/-! ### Where the RAM waits -/

/-- The write side waits for beats of its burst or for the response before to be taken. -/
theorem write_stuck (hquiet : s.WriteQuiet) {t : ℕ} (hnone : ∀ u, t ≤ u → (run s i u).ram.write.writeStateReg ≠ .idle) :
    ∃ v, t ≤ v ∧
      ((∀ u, v ≤ u → (run s i u).ram.write.writeStateReg = .burst ∧ (i u).sAxiWvalid = false) ∨
        ∀ u, v ≤ u → (run s i u).ram.write.writeStateReg = .resp ∧ (run s i u).ram.respond (i u) = false) := by
  by_cases hresp : ∃ v, t ≤ v ∧ (run s i v).ram.write.writeStateReg = .resp
  · obtain ⟨v, hv, hs⟩ := hresp
    have hwait : ∀ u, v ≤ u → (run s i u).ram.write.writeStateReg = .resp → (run s i u).ram.respond (i u) = false := by
      intro u hu hs
      cases hr : (run s i u).ram.respond (i u) with
      | false => rfl
      | true =>
        refine absurd ?_ (hnone (u + 1) (by omega))
        show ((run s i u).ram.writeNext (i u)).writeStateReg = .idle
        simp [AxiRamState.writeNext, hs, hr]
    refine ⟨v, hv, .inr fun u hu => ?_⟩
    have hstay : (run s i u).ram.write.writeStateReg = .resp := by
      induction u, hu using Nat.le_induction with
      | base => exact hs
      | succ u hu ih =>
        show ((run s i u).ram.writeNext (i u)).writeStateReg = .resp
        simp [AxiRamState.writeNext, AxiRamState.writeDefault, ih, hwait u hu ih]
    exact ⟨hstay, hwait u hu hstay⟩
  · have hburst : ∀ u, t ≤ u → (run s i u).ram.write.writeStateReg = .burst := by
      intro u hu
      cases hs : (run s i u).ram.write.writeStateReg with
      | idle => exact absurd hs (hnone u hu)
      | burst => rfl
      | resp => exact absurd ⟨u, hu, hs⟩ hresp
    -- no more beats come than the burst has
    have hplan : ∀ u, t ≤ u → (run s i u).awWords = (run s i t).awWords := by
      intro u hu
      induction u, hu using Nat.le_induction with
      | base => rfl
      | succ u hu ih =>
        have ha := (WriteInv.run (i := i) hquiet u).awAccept_false (i := i u) (by simp [hburst u hu])
        show ((run s i u).step (i u)).awWords = _
        rw [awWords_step, ha, if_neg Bool.false_ne_true, List.append_nil, ih]
    obtain ⟨v, hv, hquietly⟩ := Progress.events_stop (f := fun u => (run s i u).wBeats.length)
      (e := fun u => (run s i u).ram.wAccept (i u)) (t := t) (B := (run s i t).awWords.length)
      (fun u _ => by
        show ((run s i u).step (i u)).wBeats.length = _
        rw [step, List.length_append]
        cases (run s i u).ram.wAccept (i u) <;> rfl)
      (fun u hu => by
        rw [← hplan u hu]
        exact (WriteInv.run hquiet u).le)
    refine ⟨v, hv, .inl fun u hu => ⟨hburst u (hv.trans hu), ?_⟩⟩
    have hw := hquietly u hu
    rw [AxiRamState.wAccept, (WriteInv.run hquiet u).wready, hburst u (hv.trans hu)] at hw
    exact hw

/-- The read side waits for a word on the R channel to be taken. -/
theorem read_stuck (hquiet : s.ReadQuiet) {t : ℕ} (hnone : ∀ u, t ≤ u → (run s i u).ram.read.readStateReg ≠ .idle) :
    ∃ v, t ≤ v ∧ ∀ u, v ≤ u → (run s i u).ram.sAxiRvalid = true ∧ (i u).sAxiRready = false := by
  have hburst : ∀ u, t ≤ u → (run s i u).ram.read.readStateReg = .burst := by
    intro u hu
    cases hs : (run s i u).ram.read.readStateReg with
    | idle => exact absurd hs (hnone u hu)
    | burst => rfl
  have hplan : ∀ u, t ≤ u → (run s i u).arWords = (run s i t).arWords := by
    intro u hu
    induction u, hu using Nat.le_induction with
    | base => rfl
    | succ u hu ih =>
      have ha := (ReadInv.run (i := i) hquiet u).arAccept_false (i := i u) (hburst u hu)
      show ((run s i u).step (i u)).arWords = _
      rw [arWords_step, ha, if_neg Bool.false_ne_true, List.append_nil, ih]
  obtain ⟨v, hv, hquietly⟩ := Progress.events_stop (f := fun u => (run s i u).fetched.length)
    (e := fun u => (run s i u).ram.memRdEn (i u)) (t := t) (B := (run s i t).arWords.length)
    (fun u _ => by
      show ((run s i u).step (i u)).fetched.length = _
      rw [step, List.length_append]
      cases (run s i u).ram.memRdEn (i u) <;> rfl)
    (fun u hu => by
      rw [← hplan u hu]
      exact (ReadInv.run hquiet u).le)
  refine ⟨v, hv, fun u hu => ?_⟩
  have hrd := hquietly u hu
  simp only [AxiRamState.memRdEn, AxiRamState.advances, hburst u (hv.trans hu), beq_self_eq_true, Bool.true_and,
    Bool.or_eq_false_iff, Bool.not_eq_false', Bool.and_eq_false_imp] at hrd
  obtain ⟨⟨hready, hpipe⟩, hvalid⟩ := hrd
  refine ⟨?_, hready⟩
  unfold AxiRamState.sAxiRvalid
  split_ifs with hp
  · exact hpipe hp
  · exact hvalid

/-- A word that is asked for comes to the R channel. -/
theorem rvalid_due (hquiet : s.ReadQuiet) {t : ℕ} (hlt : (run s i t).delivered.length < (run s i t).arWords.length) :
    ∃ u, t ≤ u ∧ (run s i u).ram.sAxiRvalid = true := by
  have hshown : ∀ u, t ≤ u → (run s i u).ram.pending ≠ [] → ∃ v, t ≤ v ∧ (run s i v).ram.sAxiRvalid = true := by
    intro u hu hne
    rcases AxiRamState.rvalid_next (i := i u) hne with hv | hv
    · exact ⟨u, hu, hv⟩
    · exact ⟨u + 1, by omega, hv⟩
  have hinv := ReadInv.run (i := i) hquiet t
  by_cases hne : (run s i t).ram.pending = []
  · -- the word is fetched now
    have hbeats := hinv.beats
    rw [hne, List.append_nil] at hbeats
    rw [hbeats] at hlt
    have hs : (run s i t).ram.read.readStateReg = .burst := by
      by_contra hs
      have hwords := hinv.words
      rw [readLeft, if_neg hs, List.drop_eq_nil_iff] at hwords
      omega
    have hvalid : (run s i t).ram.read.sAxiRvalidReg = false := by
      by_contra hv
      simp [AxiRamState.pending, hv] at hne
    have hrd : (run s i t).ram.memRdEn (i t) = true := by simp [AxiRamState.memRdEn, hs, hvalid]
    have hnext : (run s i (t + 1)).ram.read.sAxiRvalidReg = true := by
      show ((run s i t).ram.readNext (i t)).sAxiRvalidReg = true
      rw [(readNext_beat _).1, hrd, Bool.true_or]
    apply hshown (t + 1) (Nat.le_succ t)
    simp [AxiRamState.pending, hnext]
  · exact hshown t le_rfl hne

/-! ### Every burst gets through -/

/-- The master offers the beats of its bursts, and takes the responses and the words, in the end. -/
structure MasterFair (s : AxiRamState c) (i : ℕ → AxiRamInput c) : Prop where
  wvalid : ∀ t, (run s i t).wBeats.length < (run s i t).awWords.length → ∃ u, t ≤ u ∧ (i u).sAxiWvalid = true
  bready : ∀ t, (run s i t).ram.write.sAxiBvalidReg = true → ∃ u, t ≤ u ∧ (i u).sAxiBready = true
  rready : ∀ t, (run s i t).ram.sAxiRvalid = true → ∃ u, t ≤ u ∧ (i u).sAxiRready = true

lemma exists_write_idle (hquiet : s.WriteQuiet) (hfair : MasterFair s i) (t : ℕ) :
    ∃ u, t ≤ u ∧ (run s i u).ram.write.writeStateReg = .idle := by
  by_contra hnone
  obtain ⟨v, hv, hstuck⟩ := write_stuck (i := i) hquiet fun u hu hs => hnone ⟨u, hu, hs⟩
  rcases hstuck with hburst | hresp
  · have hlt : (run s i v).wBeats.length < (run s i v).awWords.length := by
      have hwords := congrArg List.length (WriteInv.run (i := i) hquiet v).words
      rw [writeLeft, if_pos (hburst v le_rfl).1, List.length_drop, AxiRamConfig.beatWords_length] at hwords
      omega
    obtain ⟨u, hu, hvalid⟩ := hfair.wvalid v hlt
    exact Bool.false_ne_true ((hburst u hu).2.symm.trans hvalid)
  · have hfull : ∀ u, v ≤ u → (i u).sAxiBready = false ∧ (run s i u).ram.write.sAxiBvalidReg = true := by
      intro u hu
      have hr := (hresp u hu).2
      rw [AxiRamState.respond, Bool.or_eq_false_iff, Bool.not_eq_false'] at hr
      exact hr
    obtain ⟨u, hu, hready⟩ := hfair.bready v (hfull v le_rfl).2
    exact Bool.false_ne_true ((hfull u hu).1.symm.trans hready)

/-- In `WRITE_STATE_IDLE` the RAM takes a burst, now or in the next cycle. -/
lemma awready_of_idle {u : ℕ} (hs : (run s i u).ram.write.writeStateReg = .idle) :
    (run s i u).ram.write.sAxiAwreadyReg = true ∨ (run s i (u + 1)).ram.write.sAxiAwreadyReg = true := by
  cases hr : (run s i u).ram.write.sAxiAwreadyReg with
  | true => exact .inl rfl
  | false =>
    right
    show ((run s i u).ram.writeNext (i u)).sAxiAwreadyReg = true
    simp [AxiRamState.writeNext, AxiRamState.awAccept, hs, hr]

lemma arready_of_idle {u : ℕ} (hs : (run s i u).ram.read.readStateReg = .idle) :
    (run s i u).ram.read.sAxiArreadyReg = true ∨ (run s i (u + 1)).ram.read.sAxiArreadyReg = true := by
  cases hr : (run s i u).ram.read.sAxiArreadyReg with
  | true => exact .inl rfl
  | false =>
    right
    show ((run s i u).ram.readNext (i u)).sAxiArreadyReg = true
    simp [AxiRamState.readNext, AxiRamState.arAccept, hs, hr]

lemma exists_awready (hquiet : s.WriteQuiet) (hfair : MasterFair s i) (t : ℕ) :
    ∃ u, t ≤ u ∧ (run s i u).ram.write.sAxiAwreadyReg = true := by
  obtain ⟨u, hu, hs⟩ := exists_write_idle hquiet hfair t
  rcases awready_of_idle hs with hr | hr
  · exact ⟨u, hu, hr⟩
  · exact ⟨u + 1, by omega, hr⟩

lemma exists_arready (hquiet : s.ReadQuiet) (hfair : MasterFair s i) (t : ℕ) :
    ∃ u, t ≤ u ∧ (run s i u).ram.read.sAxiArreadyReg = true := by
  obtain ⟨u, hu, hs⟩ : ∃ u, t ≤ u ∧ (run s i u).ram.read.readStateReg = .idle := by
    by_contra hnone
    obtain ⟨v, hv, hstuck⟩ := read_stuck (i := i) hquiet fun u hu hs => hnone ⟨u, hu, hs⟩
    obtain ⟨u, hu, hready⟩ := hfair.rready v (hstuck v le_rfl).1
    exact Bool.false_ne_true ((hstuck u hu).2.symm.trans hready)
  rcases arready_of_idle hs with hr | hr
  · exact ⟨u, hu, hr⟩
  · exact ⟨u + 1, by omega, hr⟩

lemma awBursts_mono (s : AxiRamState c) (i : ℕ → AxiRamInput c) {t u : ℕ} (htu : t ≤ u) :
    (run s i t).awBursts <+: (run s i u).awBursts :=
  ZipLog.prefix_of_step (l := fun t => (run s i t).awBursts) (fun _ => List.prefix_append _ _) htu

lemma arBursts_mono (s : AxiRamState c) (i : ℕ → AxiRamInput c) {t u : ℕ} (htu : t ≤ u) :
    (run s i t).arBursts <+: (run s i u).arBursts :=
  ZipLog.prefix_of_step (l := fun t => (run s i t).arBursts) (fun _ => List.prefix_append _ _) htu

lemma arWords_mono (s : AxiRamState c) (i : ℕ → AxiRamInput c) {t u : ℕ} (htu : t ≤ u) :
    (run s i t).arWords <+: (run s i u).arWords := by
  obtain ⟨l, hl⟩ := arBursts_mono s i htu
  rw [arWords, arWords, ← hl, List.flatMap_append]
  exact List.prefix_append _ _

/-- Each burst gets its response. -/
theorem answered_grows (hquiet : s.WriteQuiet) (hfair : MasterFair s i) (t : ℕ) :
    ∃ u, t ≤ u ∧ (run s i t).awBursts.length ≤ (run s i u).answered := by
  obtain ⟨u, hu, hs⟩ := exists_write_idle hquiet hfair t
  have hcount := (WriteInv.run (i := i) hquiet u).count
  rw [unanswered, if_pos hs, Nat.add_zero] at hcount
  have hle := (awBursts_mono s i hu).length_le
  -- the response on the B channel is the last one that is missing
  have htaken : Progress.LeadsTo
      (fun v => (run s i v).ram.write.sAxiBvalidReg = true ∧ (run s i u).awBursts.length ≤ (run s i v).responses)
      (fun v => (run s i u).awBursts.length ≤ (run s i v).answered) := by
    apply Progress.leadsTo_of_event (E := fun v => (i v).sAxiBready = true)
    · rintro v ⟨hvalid, hresp⟩ hr
      refine ⟨AxiRamState.bvalid_held hvalid (Bool.eq_false_of_not_eq_true hr), ?_⟩
      show _ ≤ ((run s i v).step (i v)).responses
      rw [responses_step]
      omega
    · rintro v ⟨hvalid, hresp⟩ hr
      show _ ≤ (run s i v).answered + ((run s i v).ram.write.sAxiBvalidReg && (i v).sAxiBready).toNat
      rw [responses, hvalid] at hresp
      rw [hvalid, hr]
      exact hresp
    · rintro v ⟨hvalid, -⟩
      exact hfair.bready v hvalid
  cases hv : (run s i u).ram.write.sAxiBvalidReg with
  | false =>
    rw [responses, hv, Bool.toNat_false, Nat.add_zero] at hcount
    exact ⟨u, hu, by omega⟩
  | true =>
    obtain ⟨v, huv, hall⟩ := htaken u ⟨hv, hcount.ge⟩
    exact ⟨v, hu.trans huv, by omega⟩

/-- Each word that is asked for is delivered. -/
theorem delivered_grows (hquiet : s.ReadQuiet) (hfair : MasterFair s i) (t : ℕ) :
    ∃ u, t ≤ u ∧ (run s i t).arWords.length ≤ (run s i u).delivered.length := by
  by_contra hnone
  have hlt : ∀ u, t ≤ u → (run s i u).delivered.length < (run s i t).arWords.length :=
    fun u hu => Nat.lt_of_not_le fun hle => hnone ⟨u, hu, hle⟩
  obtain ⟨v, hv, hquietly⟩ := Progress.events_stop (f := fun u => (run s i u).delivered.length)
    (e := fun u => (run s i u).ram.sAxiRvalid && (i u).sAxiRready) (t := t) (B := (run s i t).arWords.length)
    (fun u _ => by
      show ((run s i u).step (i u)).delivered.length = _
      rw [step, List.length_append]
      cases (run s i u).ram.sAxiRvalid && (i u).sAxiRready <;> rfl)
    (fun u hu => (hlt u hu).le)
  obtain ⟨w, hw, hvalid⟩ := rvalid_due (i := i) hquiet ((hlt v hv).trans_le (arWords_mono s i hv).length_le)
  have hstay : ∀ u, w ≤ u → (run s i u).ram.sAxiRvalid = true ∧ (i u).sAxiRready = false := by
    intro u hu
    have hready : (run s i u).ram.sAxiRvalid = true → (i u).sAxiRready = false := by
      intro hvalid
      have hnot := hquietly u (hw.trans hu)
      rw [hvalid, Bool.true_and] at hnot
      exact hnot
    induction u, hu using Nat.le_induction with
    | base => exact ⟨hvalid, hready hvalid⟩
    | succ u hu ih =>
      have hbefore := ih fun hvalid => by
        have hnot := hquietly u (hw.trans hu)
        rw [hvalid, Bool.true_and] at hnot
        exact hnot
      have hnext : (run s i (u + 1)).ram.sAxiRvalid = true := (AxiRamState.rvalid_held hbefore.1 hbefore.2).1
      exact ⟨hnext, hready hnext⟩
  obtain ⟨u, hu, hready⟩ := hfair.rready w hvalid
  exact Bool.false_ne_true ((hstay u hu).2.symm.trans hready)

end Runs

/-- The RAM is a memory on both of its ports. -/
theorem axi_ram_ok (s : AxiRamState c) (i : ℕ → AxiRamInput c) (hquiet : s.Quiet) (t : ℕ) :
    (run s i t).ram.bytes = cardAfter s.bytes (storesOf (run s i t).awWords (run s i t).wBeats) ∧
    ((run s i t).wBeats.length ≤ (run s i t).awWords.length ∧
      (((run s i t).awBursts.take (run s i t).responses).flatMap (RamBurst.words c)).length ≤
        (run s i t).wBeats.length) ∧
    (run s i t).delivered.map RBeat.rlast <+: (run s i t).arBursts.flatMap RamBurst.lastFlags ∧
    (∀ k w, (run s i t).delivered[k]? = some w → ∃ u, u < t ∧ (run s i u).fetched.length = k ∧
      ∃ a, (run s i u).arWords[k]? = some a ∧ w.rdata = cardWord c.toAxiConfig (run s i u).ram.bytes a) ∧
    ((run s i t).ram.write.sAxiBvalidReg = true → (i t).sAxiBready = false →
      (run s i (t + 1)).ram.write.sAxiBvalidReg = true) ∧
    ((run s i t).ram.sAxiRvalid = true → (i t).sAxiRready = false →
      (run s i (t + 1)).ram.sAxiRvalid = true ∧ (run s i (t + 1)).ram.sAxiR = (run s i t).ram.sAxiR) ∧
    (MasterFair s i →
      (∃ u, t ≤ u ∧ (run s i u).ram.write.sAxiAwreadyReg = true) ∧
      (∃ u, t ≤ u ∧ (run s i t).awBursts.length ≤ (run s i u).answered) ∧
      (∃ u, t ≤ u ∧ (run s i u).ram.read.sAxiArreadyReg = true) ∧
      ∃ u, t ≤ u ∧ (run s i t).arWords.length ≤ (run s i u).delivered.length) := by
  have hwrite := WriteInv.run (i := i) hquiet.toWriteQuiet t
  have hread := ReadInv.run (i := i) hquiet.toReadQuiet t
  have hdelivered : (run s i t).delivered <+: (run s i t).fetched := by
    rw [← hread.beats]
    exact List.prefix_append _ _
  refine ⟨hwrite.mem, ⟨hwrite.le, hwrite.done⟩, ?_, fun k w hk => ?_, AxiRamState.bvalid_held, AxiRamState.rvalid_held,
    fun hfair => ?_⟩
  · refine (hdelivered.map _).trans ?_
    rw [← hread.lasts]
    exact List.prefix_append _ _
  · obtain ⟨l, hl⟩ := hdelivered
    apply fetched_words (t := t) hquiet.toReadQuiet
    rw [← hl, List.getElem?_append_left (List.getElem?_eq_some_iff.mp hk).1, hk]
  · exact ⟨exists_awready hquiet.toWriteQuiet hfair t, answered_grows hquiet.toWriteQuiet hfair t,
      exists_arready hquiet.toReadQuiet hfair t, delivered_grows hquiet.toReadQuiet hfair t⟩

/-- A master that writes two words at address 64 and reads them back, burst after burst. -/
def readBack (c : AxiRamConfig) (t : ℕ) : AxiRamInput c where
  sAxiAw := ⟨64, 1, 6, 1⟩
  sAxiAwvalid := true
  sAxiW := ⟨fun j => BitVec.ofNat 8 (t + j), fun _ => true, true⟩
  sAxiWvalid := true
  sAxiBready := true
  sAxiAr := ⟨64, 1, 6, 1⟩
  sAxiArvalid := true
  sAxiRready := true

theorem axi_ram_read_back :
    let c : AxiRamConfig := ⟨⟨6, 16, 16, by decide, by decide, by decide, by decide⟩, true⟩
    let s := AxiRamState.reset c
    (run s (readBack c) 20).ram.bytes =
      cardAfter s.bytes (storesOf (run s (readBack c) 20).awWords (run s (readBack c) 20).wBeats) ∧
    ∃ u, 20 ≤ u ∧ (run s (readBack c) 20).arWords.length ≤ (run s (readBack c) u).delivered.length := by
  intro c s
  obtain ⟨hmem, -, -, -, -, -, hfair⟩ := axi_ram_ok s (readBack c) (AxiRamState.reset_quiet c) 20
  have hserves : MasterFair s (readBack c) :=
    ⟨fun t _ => ⟨t, le_rfl, rfl⟩, fun t _ => ⟨t, le_rfl, rfl⟩, fun t _ => ⟨t, le_rfl, rfl⟩⟩
  exact ⟨hmem, (hfair hserves).2.2.2⟩

end AxiRamSystem

end FpgaPcie
