import FpgaPcie.Rtl.AxiDmaWrStores
import FpgaPcie.Rtl.AxiRamMemory

/-!
# The AXI RAM behind the reader and the writer

With the RAM on its AXI port the writer has a fair card memory, whatever its stream does, and what it stores is what
the memory holds. The reader has a fair slave too, which answers from the memory as long as nobody writes. In both
cases the waiting goes in a circle: the RAM takes no burst before it has the beats of the one before, and the master
takes no response before its FIFO of the due ones has one.
-/

namespace FpgaPcie

/-- The RAM for the bus of a reader or a writer. -/
abbrev AxiConfig.ram (c : AxiConfig) (pipelineOutput : Bool) : AxiRamConfig := ⟨c, pipelineOutput⟩

/-- A burst of the reader or the writer, with `m_axi_awsize` and `m_axi_awburst`. -/
def AxiBurst.toRam (c : AxiConfig) (b : AxiBurst) : RamBurst := ⟨b.axaddr, b.axlen, c.axiBurstSize, 1⟩

lemma AxiBurst.Legal.words_toRam {c : AxiConfig} {b : AxiBurst} (h : b.Legal c) (p : Bool) :
    (b.toRam c).words (c.ram p) = b.words c := by
  have hlen : b.axlen % 2 ^ 8 = b.axlen := Nat.mod_eq_of_lt (h.len_lt.trans_le c.axiMaxBurstLen_le)
  have hsize : (c.ram p).sizeNext c.axiBurstSize = (c.ram p).axiBurstSize := if_neg (Nat.lt_irrefl _)
  show (c.ram p).beatWords ((c.ram p).sizeNext c.axiBurstSize) 1 (b.axaddr % 2 ^ c.axiAddrWidth) (b.axlen % 2 ^ 8 + 1) = _
  rw [hlen, hsize, AxiRamConfig.beatWords_incr (c := c.ram p) Nat.one_ne_zero h.aligned]
  rfl

lemma flatMap_words_toRam {c : AxiConfig} {l : List AxiBurst} (h : ∀ b ∈ l, b.Legal c) (p : Bool) :
    (l.map (AxiBurst.toRam c)).flatMap (RamBurst.words (c.ram p)) = l.flatMap (AxiBurst.words c) := by
  rw [List.flatMap_map]
  exact List.flatMap_congr fun b hb => (h b hb).words_toRam p

namespace AxiDmaWrSystem

variable {c : AxiDmaWrConfig} {p : Bool} {s : AxiDmaWrState c} {i : ℕ → AxiDmaWrInput c}
  {r : AxiRamState (c.ram p)} {j : ℕ → AxiRamInput (c.ram p)}

/-! ### The writer -/

/-- The RAM is on the AXI port of the writer. -/
structure RamLink (s : AxiDmaWrState c) (i : ℕ → AxiDmaWrInput c) (r : AxiRamState (c.ram p))
    (j : ℕ → AxiRamInput (c.ram p)) : Prop where
  awready : ∀ t, (i t).mAxiAwready = (AxiRamSystem.run r j t).ram.write.sAxiAwreadyReg
  wready : ∀ t, (i t).mAxiWready = (AxiRamSystem.run r j t).ram.write.sAxiWreadyReg
  bvalid : ∀ t, (i t).mAxiBvalid = (AxiRamSystem.run r j t).ram.write.sAxiBvalidReg
  awvalid : ∀ t, (j t).sAxiAwvalid = (run s i t).engine.reg.mAxiAwvalidReg
  aw : ∀ t, (j t).sAxiAw = AxiBurst.toRam c.toAxiConfig
    ⟨(run s i t).engine.reg.mAxiAwaddrReg, (run s i t).engine.reg.mAxiAwlenReg⟩
  wvalid : ∀ t, (j t).sAxiWvalid = (run s i t).engine.out.outValidReg
  w : ∀ t, (j t).sAxiW = (run s i t).engine.out.outReg
  bready : ∀ t, (j t).sAxiBready = (run s i t).engine.status.mAxiBreadyReg

namespace RamLink

lemma awBursts (h : RamLink s i r j) (t : ℕ) :
    (AxiRamSystem.run r j t).awBursts = (run s i t).issued.map (AxiBurst.toRam c.toAxiConfig) := by
  induction t with
  | zero => rfl
  | succ t ih =>
    rw [AxiRamSystem.run, AxiRamSystem.step, AxiRamState.awAccept, h.awvalid, h.aw, ih, run, step, presented, h.awready]
    cases (AxiRamSystem.run r j t).ram.write.sAxiAwreadyReg <;> cases (run s i t).engine.reg.mAxiAwvalidReg <;> simp

lemma wBeats (h : RamLink s i r j) (t : ℕ) : (AxiRamSystem.run r j t).wBeats = (run s i t).written := by
  induction t with
  | zero => rfl
  | succ t ih =>
    rw [AxiRamSystem.run, AxiRamSystem.step, AxiRamState.wAccept, h.wvalid, h.w, ih, run, step, h.wready]
    cases (AxiRamSystem.run r j t).ram.write.sAxiWreadyReg <;> cases (run s i t).engine.out.outValidReg <;> simp

lemma answered (h : RamLink s i r j) (t : ℕ) : (AxiRamSystem.run r j t).answered = (run s i t).answered := by
  induction t with
  | zero => rfl
  | succ t ih =>
    rw [AxiRamSystem.run, AxiRamSystem.step, ih, h.bready, run, step, h.bvalid]
    cases (AxiRamSystem.run r j t).ram.write.sAxiBvalidReg <;>
      cases (run s i t).engine.status.mAxiBreadyReg <;> rfl

lemma issued_legal (hquiet : Quiet s) (hin : ∀ t, InputOk (i t)) (t : ℕ) :
    ∀ b ∈ (run s i t).issued, b.Legal c.toAxiConfig := by
  obtain ⟨g, q, hinv, -⟩ := Inv.run hquiet hin t
  exact fun b hb => hinv.legal b (List.mem_append_left _ hb)

lemma awWords (h : RamLink s i r j) (hquiet : Quiet s) (hin : ∀ t, InputOk (i t)) (t : ℕ) :
    (AxiRamSystem.run r j t).awWords = (run s i t).issued.flatMap (AxiBurst.words c.toAxiConfig) := by
  rw [AxiRamSystem.awWords, h.awBursts]
  exact flatMap_words_toRam (issued_legal hquiet hin t) p

/-- The memory has what the writer has stored. -/
theorem bytes_eq (h : RamLink s i r j) (hram : r.WriteQuiet) (hquiet : Quiet s) (hin : ∀ t, InputOk (i t)) (t : ℕ) :
    (AxiRamSystem.run r j t).ram.bytes = cardAfter r.bytes (run s i t).stored := by
  rw [(AxiRamSystem.WriteInv.run hram t).mem, h.awWords hquiet hin, h.wBeats]
  rfl

/-! ### The bursts that are complete -/

lemma lastFlags_ends {l : List AxiBurst} (hl : l ≠ []) : ∃ flags, l.flatMap AxiBurst.lastFlags = flags ++ [true] := by
  obtain ⟨l', b, rfl⟩ := List.eq_nil_or_concat' l |>.resolve_left hl
  refine ⟨l'.flatMap AxiBurst.lastFlags ++ List.replicate b.axlen false, ?_⟩
  rw [List.flatMap_append, List.flatMap_singleton, AxiBurst.lastFlags, List.append_assoc]

/-- What is missing of the flags has the last one. -/
lemma missing_true {l : List AxiBurst} {done rest : List Bool} (h : l.flatMap AxiBurst.lastFlags = done ++ rest)
    (hne : rest ≠ []) : 1 ≤ rest.count true := by
  have hl : l ≠ [] := by
    rintro rfl
    exact hne (List.append_eq_nil_iff.mp h.symm).2
  obtain ⟨flags, hflags⟩ := lastFlags_ends hl
  obtain ⟨rest', b, rfl⟩ := List.eq_nil_or_concat' rest |>.resolve_left hne
  rw [hflags, ← List.append_assoc] at h
  obtain ⟨-, hb⟩ := List.append_inj' h rfl
  rw [← List.cons.inj hb |>.1, List.count_append]
  exact Nat.le_add_left _ _

lemma lastFlags_length (l : List AxiBurst) :
    (l.flatMap AxiBurst.lastFlags).length = (l.flatMap (AxiBurst.words c.toAxiConfig)).length := by
  induction l with
  | nil => rfl
  | cons b l ih =>
    rw [List.flatMap_cons, List.flatMap_cons, List.length_append, List.length_append, ih]
    simp [AxiBurst.lastFlags, AxiBurst.words]

/-- A burst on the AW channel is behind the beats of the bursts before. -/
lemma made_covers {x : AxiDmaWrSystem c} {g : WrFrames c} {q : List (WBeat c.axiStrbWidth)} (h : Inv x g q)
    (hv : x.engine.reg.mAxiAwvalidReg = true) :
    (x.issued.flatMap (AxiBurst.words c.toAxiConfig)).length ≤ (x.made q).length := by
  have hflags := h.flags
  rw [bursts, presented, hv, if_pos rfl, List.flatMap_append, List.flatMap_singleton] at hflags
  rw [← lastFlags_length, ← List.length_map (f := WBeat.wlast)]
  by_contra hlt
  -- then a flag of the bursts before and one of this burst are missing
  obtain ⟨rest, hrest⟩ := List.prefix_of_prefix_length_le ⟨_, hflags⟩ (List.prefix_append _ _) (Nat.le_of_not_le hlt)
  have hne : rest ≠ [] := by
    rintro rfl
    rw [List.append_nil] at hrest
    exact hlt (by rw [hrest])
  have hone := missing_true hrest.symm hne
  rw [← hrest, List.append_assoc] at hflags
  have hleft := List.append_cancel_left hflags
  have hcount := congrArg (List.count true) hleft
  rw [List.count_append, AxiBurst.lastFlags, List.count_append, List.count_replicate] at hcount
  have hatmost : (flagsLeft x.engine.reg).count true ≤ 1 := by
    unfold flagsLeft
    split_ifs
    · simp [List.count_append, List.count_replicate]
    · exact Nat.zero_le _
  simp at hcount
  omega

/-! ### The RAM is fair to the writer -/

lemma active_eq (hquiet : Quiet s) (hin : ∀ t, InputOk (i t)) (t : ℕ) :
    (run s i t).answered + (run s i t).engine.status.activeCountReg = (run s i t).bursts.length :=
  (statusInv hquiet hin t).count

/-- With two responses due the writer takes one. -/
lemma bready_comes (hquiet : Quiet s) (hin : ∀ t, InputOk (i t)) {t : ℕ}
    (hdue : (run s i t).answered + 2 ≤ (run s i t).bursts.length)
    (hr : (run s i t).engine.status.mAxiBreadyReg = false) :
    (run s i (t + 1)).engine.status.mAxiBreadyReg = true := by
  have hcount := active_eq hquiet hin t
  have hone : writing (run s i t).engine ≤ 1 := by
    unfold writing
    split_ifs <;> omega
  have hlt : writing (run s i t).engine < (run s i t).engine.status.activeCountReg := by omega
  show ((run s i t).engine.statusNext (i t)).mAxiBreadyReg = true
  rw [AxiDmaWrState.statusNext, (statusInv hquiet hin t).ne_iff, hr, decide_eq_true hlt]
  rfl

lemma bursts_length (x : AxiDmaWrSystem c) :
    x.bursts.length = x.issued.length + x.engine.reg.mAxiAwvalidReg.toNat := by
  rw [bursts, presented, List.length_append]
  cases x.engine.reg.mAxiAwvalidReg <;> rfl

/-- The RAM does not wait for ever to give a response. -/
lemma not_resp (h : RamLink s i r j) (hram : r.WriteQuiet) (hquiet : Quiet s) (hin : ∀ t, InputOk (i t)) {v : ℕ}
    (hresp : ∀ u, v ≤ u → (AxiRamSystem.run r j u).ram.write.writeStateReg = .resp ∧
      (AxiRamSystem.run r j u).ram.respond (j u) = false) : False := by
  have hfull : ∀ u, v ≤ u → (run s i u).engine.status.mAxiBreadyReg = false ∧
      (AxiRamSystem.run r j u).ram.write.sAxiBvalidReg = true := by
    intro u hu
    have hr := (hresp u hu).2
    rw [AxiRamState.respond, h.bready, Bool.or_eq_false_iff, Bool.not_eq_false'] at hr
    exact hr
  have hcount := (AxiRamSystem.WriteInv.run (i := j) hram v).count
  rw [AxiRamSystem.responses, (hfull v le_rfl).2, AxiRamSystem.unanswered, (hresp v le_rfl).1, h.answered, h.awBursts,
    List.length_map] at hcount
  have hbursts := bursts_length (run s i v)
  have hone : (if RamWriteFsm.resp = .idle then 0 else 1) = 1 := rfl
  rw [hone, Bool.toNat_true] at hcount
  have hready := bready_comes hquiet hin (t := v) (by omega) (hfull v le_rfl).1
  exact Bool.false_ne_true ((hfull (v + 1) (Nat.le_succ v)).1.symm.trans hready)

lemma bvalid_held (h : RamLink s i r j) {t : ℕ} (hv : (i t).mAxiBvalid = true)
    (hr : (run s i t).engine.status.mAxiBreadyReg = false) : (i (t + 1)).mAxiBvalid = true := by
  rw [h.bvalid] at hv ⊢
  exact AxiRamState.bvalid_held hv ((h.bready t).trans hr)

/-- A burst that is complete has its response, or gets it in the next cycle. -/
lemma bvalid_comes (h : RamLink s i r j) (hram : r.WriteQuiet) (hquiet : Quiet s) (hin : ∀ t, InputOk (i t)) {t : ℕ}
    (hlt : (run s i t).answered < (run s i t).finished) : ∃ u, t ≤ u ∧ (i u).mAxiBvalid = true := by
  cases hv : (AxiRamSystem.run r j t).ram.write.sAxiBvalidReg with
  | true => exact ⟨t, le_rfl, (h.bvalid t).trans hv⟩
  | false =>
    have hinv := AxiRamSystem.WriteInv.run (i := j) hram t
    have hcount := hinv.count
    have hle : (run s i t).finished ≤ (run s i t).issued.length := min_le_left _ _
    rw [AxiRamSystem.responses, hv, Bool.toNat_false, Nat.add_zero, AxiRamSystem.unanswered, h.answered, h.awBursts,
      List.length_map] at hcount
    refine ⟨t + 1, Nat.le_succ t, ?_⟩
    rw [h.bvalid]
    show ((AxiRamSystem.run r j t).ram.writeNext (j t)).sAxiBvalidReg = true
    cases hs : (AxiRamSystem.run r j t).ram.write.writeStateReg with
    | idle =>
      rw [hs, if_pos rfl] at hcount
      omega
    | resp => simp [AxiRamState.writeNext, AxiRamState.respond, hs, hv]
    | burst =>
      -- the last flag of the last burst has not come
      exfalso
      have hwords := congrArg List.length hinv.words
      rw [AxiRamSystem.writeLeft, if_pos hs, List.length_drop, AxiRamConfig.beatWords_length,
        h.awWords hquiet hin, h.wBeats, ← lastFlags_length] at hwords
      obtain ⟨g, q, hwriter, -⟩ := Inv.run hquiet hin t
      have hissued : (run s i t).issued.flatMap AxiBurst.lastFlags <+: (run s i t).bursts.flatMap AxiBurst.lastFlags := by
        rw [bursts, List.flatMap_append]
        exact List.prefix_append _ _
      obtain ⟨rest, hrest⟩ := List.prefix_of_prefix_length_le hwriter.wlast_begins hissued (by
        rw [List.length_map]
        omega)
      have hne : rest ≠ [] := by
        rintro rfl
        rw [List.append_nil] at hrest
        have hlen := congrArg List.length hrest
        rw [List.length_map] at hlen
        omega
      have hone := missing_true hrest.symm hne
      have htotal := congrArg (List.count true) hrest
      rw [List.count_append, lastFlags_count] at htotal
      have hcome : (run s i t).finished ≤ ((run s i t).written.map WBeat.wlast).count true := min_le_right _ _
      rw [hs, if_neg (by simp)] at hcount
      omega

/-- The output register of the writer has a beat whenever there is one. -/
lemma outValid_comes {o : OutFifo (WBeat c.axiStrbWidth)} {w : ℕ} {q : List (WBeat c.axiStrbWidth)}
    (hq : o.Stores w q) (hne : o.pending q ≠ []) (v : Bool) (b : WBeat c.axiStrbWidth) (ready : Bool) :
    o.outValidReg = true ∨ (o.step w v b ready).outValidReg = true := by
  cases hv : o.outValidReg with
  | true => exact .inl rfl
  | false =>
    right
    rw [OutFifo.pending, hv, if_neg Bool.false_ne_true, List.nil_append] at hne
    have hload := OutFifo.load_eq hq ready
    rw [List.isEmpty_eq_false_iff.mpr hne, hv] at hload
    simp [OutFifo.step, hload]

/-- A burst on the AW channel stays there while it is not accepted. -/
lemma awvalid_held {t u : ℕ} (hv : (run s i t).engine.reg.mAxiAwvalidReg = true)
    (hno : ∀ v, t ≤ v → v < u → (i v).mAxiAwready = false) (hu : t ≤ u) :
    (run s i u).engine.reg.mAxiAwvalidReg = true ∧ (run s i u).issued = (run s i t).issued := by
  induction u, hu using Nat.le_induction with
  | base => exact ⟨hv, rfl⟩
  | succ u hu ih =>
    obtain ⟨hvalid, hissued⟩ := ih fun v hv hlt => hno v hv (Nat.lt_succ_of_lt hlt)
    have hready := hno u hu (Nat.lt_succ_self u)
    have hb : (run s i u).engine.startsBurst (i u) = false := by
      by_contra hb
      exact Bool.false_ne_true
        ((startsBurst_spec (Bool.eq_true_of_not_eq_false hb)).2.1.symm.trans hvalid)
    refine ⟨?_, ?_⟩
    · show ((run s i u).engine.regNext (i u)).mAxiAwvalidReg = true
      rw [(aw_keep hb).1, hvalid, hready]
      rfl
    · rw [run, step, hready, if_neg Bool.false_ne_true, List.append_nil, hissued]

/-- The RAM takes a burst in the end. -/
lemma awready_comes (h : RamLink s i r j) (hram : r.WriteQuiet) (hquiet : Quiet s) (hin : ∀ t, InputOk (i t)) {t : ℕ}
    (hv : (run s i t).engine.reg.mAxiAwvalidReg = true) : ∃ u, t ≤ u ∧ (i u).mAxiAwready = true := by
  by_contra hnone
  have hno : ∀ u, t ≤ u → (i u).mAxiAwready = false :=
    fun u hu => Bool.eq_false_of_not_eq_true fun hyes => hnone ⟨u, hu, hyes⟩
  have hnever : ∀ u, t ≤ u → (AxiRamSystem.run r j u).ram.write.writeStateReg ≠ .idle := by
    intro u hu hs
    rcases AxiRamSystem.awready_of_idle hs with hready | hready
    · exact Bool.false_ne_true ((hno u hu).symm.trans ((h.awready u).trans hready))
    · exact Bool.false_ne_true ((hno (u + 1) (by omega)).symm.trans ((h.awready (u + 1)).trans hready))
  obtain ⟨v, htv, hburst | hresp⟩ := AxiRamSystem.write_stuck hram hnever
  · -- the beats of the burst before are made, and so on the W channel
    obtain ⟨hvalid, -⟩ := awvalid_held hv (fun u hu _ => hno u hu) htv
    obtain ⟨g, q, hinv, -⟩ := Inv.run hquiet hin v
    have hcovers := made_covers hinv hvalid
    have hwords := congrArg List.length (AxiRamSystem.WriteInv.run (i := j) hram v).words
    rw [AxiRamSystem.writeLeft, if_pos (hburst v le_rfl).1, List.length_drop, AxiRamConfig.beatWords_length,
      h.awWords hquiet hin, h.wBeats] at hwords
    have hne : (run s i v).engine.out.pending q ≠ [] := by
      intro hnil
      rw [made, hnil, List.append_nil] at hcovers
      omega
    have hno' : ∀ u, v ≤ u → (run s i u).engine.out.outValidReg = false :=
      fun u hu => (h.wvalid u).symm.trans (hburst u hu).2
    rcases outValid_comes hinv.room.stores hne ((run s i v).engine.wvalidInt (i v))
      ((run s i v).engine.beatInt (i v)) (i v).mAxiWready with hout | hout
    · exact Bool.false_ne_true ((hno' v le_rfl).symm.trans hout)
    · exact Bool.false_ne_true ((hno' (v + 1) (Nat.le_succ v)).symm.trans hout)
  · exact h.not_resp hram hquiet hin hresp

/-- The RAM takes a beat in the end. -/
lemma wready_comes (h : RamLink s i r j) (hram : r.WriteQuiet) (hquiet : Quiet s) (hin : ∀ t, InputOk (i t)) {t : ℕ}
    (hv : (run s i t).engine.out.outValidReg = true) : ∃ u, t ≤ u ∧ (i u).mAxiWready = true := by
  by_contra hnone
  have hno : ∀ u, t ≤ u → (i u).mAxiWready = false :=
    fun u hu => Bool.eq_false_of_not_eq_true fun hyes => hnone ⟨u, hu, hyes⟩
  have hnever : ∀ u, t ≤ u → (AxiRamSystem.run r j u).ram.write.writeStateReg ≠ .burst := by
    intro u hu hs
    have hready := (AxiRamSystem.WriteInv.run (i := j) hram u).wready
    rw [← h.wready, hno u hu, hs] at hready
    exact Bool.false_ne_true hready
  have hheld : ∀ u, t ≤ u → (run s i u).engine.out.outValidReg = true := by
    intro u hu
    induction u, hu using Nat.le_induction with
    | base => exact hv
    | succ u hu ih =>
      show ((run s i u).engine.out.step _ _ _ (i u).mAxiWready).outValidReg = true
      rw [hno u hu]
      exact (OutFifo.step_hold _ _ _ ih).1
  by_cases hidle : ∃ u, t ≤ u ∧ (AxiRamSystem.run r j u).ram.write.writeStateReg = .idle
  · obtain ⟨u, hu, hs⟩ := hidle
    -- the beat is one of a burst on the AW channel
    have hvalid : (run s i u).engine.reg.mAxiAwvalidReg = true := by
      by_contra hnot
      obtain ⟨g, q, hinv, -⟩ := Inv.run hquiet hin u
      have hflags := congrArg List.length hinv.flags
      have hwords := (AxiRamSystem.WriteInv.run (i := j) hram u).words
      rw [AxiRamSystem.writeLeft, if_neg (by simp [hs]), List.drop_eq_nil_iff, h.awWords hquiet hin, h.wBeats,
        ← lastFlags_length] at hwords
      rw [bursts, presented, if_neg hnot, List.append_nil, List.length_append, List.length_map, made,
        List.length_append, OutFifo.pending, hheld u hu, if_pos rfl, List.length_append, List.length_singleton] at hflags
      omega
    have hburst : ∀ w, t ≤ w → (AxiRamSystem.run r j w).ram.write.writeStateReg = .idle →
        (AxiRamSystem.run r j w).ram.write.sAxiAwreadyReg = true → (run s i w).engine.reg.mAxiAwvalidReg = true → False := by
      intro w hw hs hready hvalid
      apply hnever (w + 1) (by omega)
      show ((AxiRamSystem.run r j w).ram.writeNext (j w)).writeStateReg = .burst
      simp [AxiRamState.writeNext, AxiRamState.awAccept, hs, hready, h.awvalid, hvalid]
    cases hready : (AxiRamSystem.run r j u).ram.write.sAxiAwreadyReg with
    | true => exact hburst u hu hs hready hvalid
    | false =>
      have hnext := (AxiRamSystem.awready_of_idle hs).resolve_left (by simp [hready])
      refine hburst (u + 1) (by omega) ?_ hnext ?_
      · show ((AxiRamSystem.run r j u).ram.writeNext (j u)).writeStateReg = .idle
        simp [AxiRamState.writeNext, AxiRamState.writeDefault, AxiRamState.awAccept, hs, hready]
      · refine (awvalid_held hvalid (fun w hw hlt => ?_) (Nat.le_succ u)).1
        obtain rfl : w = u := by omega
        exact (h.awready w).trans hready
  · obtain ⟨v, htv, hburst | hresp⟩ := AxiRamSystem.write_stuck (i := j) hram fun u hu hs => hidle ⟨u, hu, hs⟩
    · exact hnever v htv (hburst v le_rfl).1
    · exact h.not_resp hram hquiet hin hresp

theorem slaveFair (h : RamLink s i r j) (hram : r.WriteQuiet) (hquiet : Quiet s) (hin : ∀ t, InputOk (i t)) :
    SlaveFair s i :=
  ⟨fun _ hv => h.awready_comes hram hquiet hin hv, fun _ hv => h.wready_comes hram hquiet hin hv,
    fun _ hlt => h.bvalid_comes hram hquiet hin hlt, fun _ hv hr => h.bvalid_held hv hr⟩

/-- When the writer is quiet, so is the write side of the RAM. -/
lemma write_quiet (h : RamLink s i r j) (hram : r.WriteQuiet) (hquiet : Quiet s) (hin : ∀ t, InputOk (i t)) {t : ℕ}
    (hq : Quiet (run s i t).engine) : (AxiRamSystem.run r j t).ram.WriteQuiet := by
  have hinv := AxiRamSystem.WriteInv.run (i := j) hram t
  have hcount := hinv.count
  have hactive := active_eq hquiet hin t
  rw [AxiRamSystem.responses, h.answered, h.awBursts, List.length_map] at hcount
  rw [hq.active, bursts_length, hq.awvalid, Bool.toNat_false, Nat.add_zero, Nat.add_zero] at hactive
  have hidle : (AxiRamSystem.run r j t).ram.write.writeStateReg = .idle := by
    by_contra hs
    rw [AxiRamSystem.unanswered, if_neg hs] at hcount
    omega
  refine ⟨hidle, ?_, ?_⟩
  · rw [hinv.wready, hidle]
    rfl
  · cases hv : (AxiRamSystem.run r j t).ram.write.sAxiBvalidReg with
    | false => rfl
    | true =>
      rw [hv, Bool.toNat_true] at hcount
      omega

end RamLink

end AxiDmaWrSystem

namespace AxiDmaRdSystem

variable {c : AxiConfig} {p : Bool} {s : AxiDmaRdState c} {i : ℕ → AxiDmaRdInput c} {r : AxiRamState (c.ram p)}
  {j : ℕ → AxiRamInput (c.ram p)}

/-! ### The reader -/

/-- The RAM is on the AXI port of the reader. -/
structure RamLink (s : AxiDmaRdState c) (i : ℕ → AxiDmaRdInput c) (r : AxiRamState (c.ram p))
    (j : ℕ → AxiRamInput (c.ram p)) : Prop where
  arready : ∀ t, (i t).mAxiArready = (AxiRamSystem.run r j t).ram.read.sAxiArreadyReg
  rdata : ∀ t, (i t).mAxiRdata = (AxiRamSystem.run r j t).ram.sAxiR.rdata
  rvalid : ∀ t, (i t).mAxiRvalid = (AxiRamSystem.run r j t).ram.sAxiRvalid
  arvalid : ∀ t, (j t).sAxiArvalid = (run s i t).engine.axi.mAxiArvalidReg
  ar : ∀ t, (j t).sAxiAr = AxiBurst.toRam c
    ⟨(run s i t).engine.axi.mAxiAraddrReg, (run s i t).engine.axi.mAxiArlenReg⟩
  rready : ∀ t, (j t).sAxiRready = (run s i t).engine.axis.mAxiRreadyReg

/-- A quiet reader has all words it has asked for. -/
lemma Inv.received_all {x : AxiDmaRdSystem c} (h : x.Inv) (hq : Quiet x.engine) :
    x.asked.length ≤ x.received.length := by
  have howed := h.owed
  rw [readOwed, if_neg (by simp [hq.axis]), cmdOwed, if_neg (by simp [hq.cmd]), List.append_nil,
    List.drop_eq_nil_iff, shapes_length_eq] at howed
  have hwords := congrArg List.length h.axi.words
  rw [List.flatMap_append, List.append_assoc, List.length_append] at hwords
  show (x.issued.flatMap (AxiBurst.words c)).length ≤ _
  have hwords' : x.words.length = (x.accepted.flatMap (AxiDesc.words c)).length := rfl
  omega

namespace RamLink

lemma arBursts (h : RamLink s i r j) (t : ℕ) :
    (AxiRamSystem.run r j t).arBursts = (run s i t).issued.map (AxiBurst.toRam c) := by
  induction t with
  | zero => rfl
  | succ t ih =>
    rw [AxiRamSystem.run, AxiRamSystem.step, AxiRamState.arAccept, h.arvalid, h.ar, ih, run, step, presented, h.arready]
    cases (AxiRamSystem.run r j t).ram.read.sAxiArreadyReg <;> cases (run s i t).engine.axi.mAxiArvalidReg <;> simp

lemma delivered_length (h : RamLink s i r j) (t : ℕ) :
    (AxiRamSystem.run r j t).delivered.length = (run s i t).received.length := by
  induction t with
  | zero => rfl
  | succ t ih =>
    rw [AxiRamSystem.run, AxiRamSystem.step, List.length_append, ih, h.rready, run, step, List.length_append, h.rvalid]
    cases (AxiRamSystem.run r j t).ram.sAxiRvalid <;> cases (run s i t).engine.axis.mAxiRreadyReg <;> rfl

lemma arWords (h : RamLink s i r j) (hquiet : Quiet s) (hdesc : ∀ t, DescOk (i t)) (t : ℕ) :
    (AxiRamSystem.run r j t).arWords = (run s i t).asked := by
  rw [AxiRamSystem.arWords, h.arBursts]
  exact flatMap_words_toRam (fun b hb => (Inv.run hquiet hdesc t).axi.legal b (List.mem_append_left _ hb)) p

/-- While nobody writes the words that are asked for, the RAM answers from its memory. -/
theorem answers (h : RamLink s i r j) (hram : r.ReadQuiet) (hquiet : Quiet s) (hdesc : ∀ t, DescOk (i t)) {card : CardMem}
    (hsame : ∀ t, ∀ a ∈ (run s i t).asked, cardWord c (AxiRamSystem.run r j t).ram.bytes a = cardWord c card a) :
    Answers (cardWord c card) s i := by
  intro t hv
  rw [h.rvalid] at hv
  have hshown : (AxiRamSystem.run r j t).fetched[(AxiRamSystem.run r j t).delivered.length]? =
      some (AxiRamSystem.run r j t).ram.sAxiR := by
    rw [← (AxiRamSystem.ReadInv.run hram t).beats, List.getElem?_append_right le_rfl, Nat.sub_self]
    exact AxiRamState.pending_head hv
  obtain ⟨u, hu, -, a, ha, hdata⟩ := AxiRamSystem.fetched_words hram hshown
  obtain ⟨l, hl⟩ := AxiRamSystem.arWords_mono r j hu.le
  have hasked : a ∈ (run s i u).asked := by
    rw [← h.arWords hquiet hdesc]
    exact List.mem_of_getElem? ha
  refine ⟨a, ?_, (h.rdata t).trans (hdata.trans (hsame u a hasked))⟩
  rw [← h.arWords hquiet hdesc, ← h.delivered_length, ← hl, List.getElem?_append_left (List.getElem?_eq_some_iff.mp ha).1,
    ha]

theorem slaveFair (h : RamLink s i r j) (hram : r.ReadQuiet) (hquiet : Quiet s) (hdesc : ∀ t, DescOk (i t)) :
    SlaveFair s i := by
  refine ⟨fun t _ hready => ?_, fun t hlt => ?_, fun t hv hr => ?_⟩
  · -- the RAM stays in a burst only while its words are not taken
    obtain ⟨u, hu, hs⟩ : ∃ u, t ≤ u ∧ (AxiRamSystem.run r j u).ram.read.readStateReg = .idle := by
      by_contra hnone
      obtain ⟨v, hv, hstuck⟩ := AxiRamSystem.read_stuck (i := j) hram fun u hu hs => hnone ⟨u, hu, hs⟩
      have hno := (h.rready v).symm.trans (hstuck v le_rfl).2
      exact Bool.false_ne_true (hno.symm.trans (hready v hv))
    rcases AxiRamSystem.arready_of_idle hs with hr | hr
    · exact ⟨u, hu, (h.arready u).trans hr⟩
    · exact ⟨u + 1, by omega, (h.arready (u + 1)).trans hr⟩
  · rw [← h.delivered_length, ← h.arWords hquiet hdesc] at hlt
    obtain ⟨u, hu, hv⟩ := AxiRamSystem.rvalid_due hram hlt
    exact ⟨u, hu, (h.rvalid u).trans hv⟩
  · rw [h.rvalid] at hv ⊢
    exact (AxiRamState.rvalid_held hv ((h.rready t).trans hr)).1

/-- When the reader is quiet, so is the read side of the RAM. -/
lemma read_quiet (h : RamLink s i r j) (hram : r.ReadQuiet) (hquiet : Quiet s) (hdesc : ∀ t, DescOk (i t)) {t : ℕ}
    (hq : Quiet (run s i t).engine) : (AxiRamSystem.run r j t).ram.ReadQuiet := by
  have hall := (Inv.run hquiet hdesc t).received_all hq
  rw [← h.delivered_length, ← h.arWords hquiet hdesc] at hall
  have hinv := AxiRamSystem.ReadInv.run (i := j) hram t
  have hlen := congrArg List.length hinv.beats
  have hle := hinv.le
  rw [List.length_append] at hlen
  refine ⟨?_, List.eq_nil_of_length_eq_zero (by omega)⟩
  cases hs : (AxiRamSystem.run r j t).ram.read.readStateReg with
  | idle => rfl
  | burst =>
    have hwords := congrArg List.length hinv.words
    rw [AxiRamSystem.readLeft, if_pos hs, List.length_drop, AxiRamConfig.beatWords_length] at hwords
    omega

end RamLink

end AxiDmaRdSystem

end FpgaPcie
