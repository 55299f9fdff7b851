import FpgaPcie.Rtl.SgdmaWrPhases

/-!
# List transfers of the write side

Over a whole run the phases follow each other: the stream beats are accepted for one segment after
the other and each segment goes out as the TLPs of its descriptor. When the list reader, the
stream and the TLP port move again and again, the write side ends idle with its list FIFO empty.
-/

namespace FpgaPcie

variable {c : SgWrConfig} {mem : HostMem} {address n : ℕ}

/-- The phases of a transfer. -/
inductive SgWrPhase (mem : HostMem) (address n : ℕ) (x : SgWrSystem c) : Prop
  | loading (h : WrLoading address n x)
  | receiving (h : WrReceiving mem address n x)
  | waiting (h : WrWaiting mem address n x)
  | choosing (done e rest) (h : WrChoosing mem address n x done (e :: rest))
  | skipping (done rest) (he : x.EngineIdle) (h : WrPopping mem address n x done SgEntry.zero rest)
  | launched (done e rest) (hl : WrLaunched x e) (h : WrPopping mem address n x done e rest)
  | writing (done e rest cur out) (h : WrWriting mem address n x done e rest cur out)
  | ending (done rest) (h : WrEnding mem address n x done rest)
  | finished (h : WrFinished mem address n x)

lemma ListOk.sgList_eq_cons (h : ListOk mem address n) : ∃ e rest, sgList mem address n = e :: rest := by
  have hpos := h.pos
  apply List.exists_cons_of_length_pos
  rw [sgList_length, sgBeats]
  omega

theorem SgWrPhase.step {x : SgWrSystem c} {i : SgWrInput c} (hc : c.Supported)
    (hlist : WrListOk mem address n) (hlegal : x.Legal mem i)
    (hlow : i.descWrReqSglistStart = true → x.state.reg.descWrReqSglistStartReg = true)
    (h : SgWrPhase mem address n x) : SgWrPhase mem address n (x.step i) := by
  cases h with
  | loading h => exact .receiving (h.step hlist hlegal)
  | receiving h =>
    by_cases hlt : (x.step i).received < sgBeats n
    · exact .receiving (h.step hc hlist hlegal hlt)
    · exact .waiting (h.complete hc hlist hlegal (Nat.not_lt.mp hlt))
  | waiting h =>
    cases hs : i.descWrReqSgdmaStart with
    | false => exact .waiting (h.step hlegal hs)
    | true =>
      have hnext := h.started hlegal hs
      obtain ⟨e, rest, he⟩ := hlist.list.sgList_eq_cons
      rw [he] at hnext
      exact .choosing _ _ _ hnext
  | choosing done e rest h =>
    by_cases hz : e = SgEntry.zero
    · subst hz
      exact .skipping _ _ h.idle (h.pop hlegal)
    · exact .launched _ _ _ (h.launch hc hlist hz) (h.pop hlegal)
  | skipping done rest he h => exact .ending _ _ (h.skip hlegal he)
  | launched done e rest hl h => exact .writing _ _ _ _ _ (h.write hc hlist hlegal hl)
  | writing done e rest cur out h =>
    by_cases hlt : 64 * (out ++ x.sent i).length < e.length
    · exact .writing _ _ _ _ _ (h.step hc hlist hlegal hlt)
    · exact .ending _ _ (h.complete hc hlist hlegal (Nat.not_lt.mp hlt))
  | ending done rest h =>
    cases rest with
    | nil => exact .finished (h.finish hlegal)
    | cons e rest => exact .choosing _ _ _ (h.choose hlegal)
  | finished h => exact .finished (h.step hlegal hlow)

/-! ### What a phase shows on the outside -/

/-- The first beats of the segment of `e`: no more stream beats than it has, and each TLP beat
the one that belongs to its stream beat. -/
structure PartWritten (c : WrConfig) (e : SgEntry) (cur : List (SAxisBeat c.busBytes))
    (out : List (WrBeat c)) : Prop where
  sent_le : out.length ≤ cur.length
  taken_le : cur.length ≤ e.beats
  beat : ∀ b d w, cur[b]? = some d → out[b]? = some w → MwrBeatOk c e.address e.length b d w

/-- The beats begin the segments of `entries`: whole segments in order, and then the first beats
of the next one. -/
def WriteBegins (c : WrConfig) (entries : List SgEntry) (stream : List (SAxisBeat c.busBytes))
    (beats : List (WrBeat c)) : Prop :=
  ∃ done rest whole sent cur out, entries = done ++ rest ∧ Written c done whole sent ∧
    stream = whole ++ cur ∧ beats = sent ++ out ∧
    (cur = [] ∧ out = [] ∨ ∃ e ∈ rest.head?, e ≠ SgEntry.zero ∧ PartWritten c e cur out)

section Outside

variable {x : SgWrSystem c} {done rest : List SgEntry}

lemma Written.begins {c : WrConfig} {stream : List (SAxisBeat c.busBytes)} {beats : List (WrBeat c)}
    (h : Written c done stream beats) (he : done ++ rest = sgList mem address n) :
    WriteBegins c (sgList mem address n) stream beats :=
  ⟨done, rest, stream, beats, [], [], he.symm, h, (List.append_nil _).symm, (List.append_nil _).symm,
    .inl ⟨rfl, rfl⟩⟩

lemma WrOpening.begins (h : WrOpening x) :
    WriteBegins c.wr (sgList mem address n) x.accepted x.emitted := by
  rw [h.accepted, h.emitted]
  exact (Written.nil c.wr).begins (List.nil_append _)

lemma WrResting.begins (h : WrResting mem address n x done rest) :
    WriteBegins c.wr (sgList mem address n) x.accepted x.emitted :=
  h.written.begins h.frame.entries

lemma WrWriting.begins {e : SgEntry} {cur : List (SAxisBeat c.wr.busBytes)} {out : List (WrBeat c.wr)}
    (hc : c.Supported) (hlist : WrListOk mem address n)
    (h : WrWriting mem address n x done e rest cur out) :
    WriteBegins c.wr (sgList mem address n) x.accepted x.emitted := by
  obtain ⟨whole, sent, hw, ha, he⟩ := h.written
  have hentries := h.frame.entries
  rw [← List.append_cons] at hentries
  have hok := h.beatsOk hc hlist
  refine ⟨done, e :: rest, whole, sent, cur, out, hentries.symm, hw, ha, he,
    .inr ⟨e, rfl, h.ne_zero, hok.emitted_le, ?_, hok.beat⟩⟩
  rw [← wrBeats_eq_beats hc]
  exact hok.taken_le

theorem SgWrPhase.begins (hc : c.Supported) (hlist : WrListOk mem address n)
    (h : SgWrPhase mem address n x) : WriteBegins c.wr (sgList mem address n) x.accepted x.emitted := by
  cases h with
  | loading h => exact h.opening.begins
  | receiving h => exact h.opening.begins
  | waiting h => exact h.resting.begins
  | choosing done e rest h => exact h.resting.begins
  | skipping done rest he h => exact h.written.begins h.frame.entries
  | launched done e rest hl h => exact h.written.begins h.frame.entries
  | writing done e rest cur out h => exact h.begins hc hlist
  | ending done rest h => exact h.resting.begins
  | finished h => exact h.resting.begins

lemma WrFinished.quiet (h : WrFinished mem address n x) : x.state.Quiet :=
  ⟨h.state, h.resting.rden, h.resting.frame.fifo, h.resting.engine.quiet, h.resting.engine.shut⟩

lemma Written.length_eq {c : WrConfig} {entries : List SgEntry} {stream : List (SAxisBeat c.busBytes)}
    {beats : List (WrBeat c)} (h : Written c entries stream beats) :
    stream.length = ((segments entries).map SgEntry.beats).sum := by
  obtain ⟨parts, hparts, rfl, -⟩ := h
  generalize segments entries = es at hparts
  induction hparts with
  | nil => rfl
  | cons hp _ ih =>
    rw [List.map_cons, List.flatten_cons, List.length_append, ih, hp.length_eq, List.map_cons, List.sum_cons]

end Outside

/-! ### Runs -/

section Runs

variable {x : SgWrSystem c} {i : ℕ → SgWrInput c}

lemma SgWrSystem.run_add (x : SgWrSystem c) (i : ℕ → SgWrInput c) (m k : ℕ) :
    x.run i (m + k) = (x.run i m).run (fun u => i (m + u)) k := by
  induction k with
  | zero => rfl
  | succ k ih => rw [← Nat.add_assoc, run, ih, run]

lemma SgWrState.sgdmaNext_startReg (s : SgWrState c) (j : SgWrInput c) :
    (s.sgdmaNext j).descWrReqSglistStartReg = j.descWrReqSglistStart := by
  unfold SgWrState.sgdmaNext
  dsimp only
  repeat' split
  all_goals rfl

/-- The inputs of the engine inside. -/
def SgWrSystem.engineInputs (x : SgWrSystem c) (i : ℕ → SgWrInput c) (t : ℕ) : WrInput c.wr :=
  (x.run i t).state.engineInput (i t)

lemma SgWrSystem.engine_run (cur : List (SAxisBeat c.wr.busBytes)) (out : List (WrBeat c.wr)) (t : ℕ) :
    (x.run i t).engine ((x.engine cur out).run (x.engineInputs i) t).taken
      ((x.engine cur out).run (x.engineInputs i) t).emitted =
      (x.engine cur out).run (x.engineInputs i) t := by
  induction t with
  | zero => rfl
  | succ t ih =>
    rw [WrSystem.run, ← ih]
    rfl

section Phases

variable (hc : c.Supported) (hlist : WrListOk mem address n)
  (hlegal : ∀ t, (x.run i t).Legal mem (i t))
include hlegal

lemma wr_waiting_leadsTo (hfair : x.Fair i) :
    Progress.LeadsTo (fun t => WrWaiting mem address n (x.run i t))
      (fun t => WrChoosing mem address n (x.run i t) [] (sgList mem address n)) := by
  apply Progress.leadsTo_of_event (E := fun t => (i t).descWrReqSgdmaStart = true)
  · intro t h he
    exact h.step (hlegal t) (by simpa using he)
  · intro t h he
    exact h.started (hlegal t) he
  · intro t h
    exact hfair.started t h.irqSeen

include hc hlist

theorem SgWrPhase.run (h : SgWrPhase mem address n x)
    (hlow : ∀ t, (i t).descWrReqSglistStart = true →
      (x.run i t).state.reg.descWrReqSglistStartReg = true) (t : ℕ) :
    SgWrPhase mem address n (x.run i t) := by
  induction t with
  | zero => exact h
  | succ t ih => exact ih.step hc hlist (hlegal t) (hlow t)

lemma wr_beat_leadsTo (hfair : x.Fair i) (b : ℕ) :
    Progress.LeadsTo (fun t => WrReceiving mem address n (x.run i t) ∧ (x.run i t).received = b)
      (fun t => WrReceiving mem address n (x.run i t) ∧ (x.run i t).received = b + 1 ∨
        WrWaiting mem address n (x.run i t)) := by
  apply Progress.leadsTo_of_event (E := fun t => (i t).sglistAxisTvalid = true)
  · rintro t ⟨h, rfl⟩ he
    have hnext := h.received_next (i := i t) hc hlist
    rw [Bool.not_eq_true] at he
    rw [he, Bool.toNat_false, Nat.add_zero] at hnext
    exact ⟨h.step hc hlist (hlegal t) (by rw [hnext]; exact h.received_lt), hnext⟩
  · rintro t ⟨h, rfl⟩ he
    have hnext := h.received_next (i := i t) hc hlist
    rw [he, Bool.toNat_true] at hnext
    by_cases hlt : ((x.run i t).step (i t)).received < sgBeats n
    · exact .inl ⟨h.step hc hlist (hlegal t) hlt, hnext⟩
    · exact .inr (h.complete hc hlist (hlegal t) (Nat.not_lt.mp hlt))
  · rintro t ⟨h, -⟩
    exact hfair.delivered t _ _ h.requested h.received_lt

lemma wr_receiving_leadsTo (hfair : x.Fair i) (missing : ℕ) :
    Progress.LeadsTo (fun t => WrReceiving mem address n (x.run i t) ∧
        (x.run i t).received + missing = sgBeats n)
      (fun t => WrWaiting mem address n (x.run i t)) := by
  induction missing with
  | zero =>
    rintro t ⟨h, hall⟩
    have := h.received_lt
    omega
  | succ missing ih =>
    rintro t ⟨h, hall⟩
    obtain ⟨u, hu, hnext | hwait⟩ := wr_beat_leadsTo hc hlist hlegal hfair _ t ⟨h, rfl⟩
    · obtain ⟨v, hv, hwait⟩ := ih u ⟨hnext.1, by omega⟩
      exact ⟨v, hu.trans hv, hwait⟩
    · exact ⟨u, hu, hwait⟩

omit hlegal in
/-- A segment that is being written is written: its engine sends all its beats. -/
lemma writing_leaves {y : SgWrSystem c} {j : ℕ → SgWrInput c} (hlegal : ∀ t, (y.run j t).Legal mem (j t))
    (hoffered : ∀ t, ∃ u, t ≤ u ∧ (j u).sAxisTlpTvalid = true)
    (haccepted : ∀ t, ∃ u, t ≤ u ∧ (j u).txWrReqTlpReady = true) {done rest : List SgEntry} {e : SgEntry}
    {cur : List (SAxisBeat c.wr.busBytes)} {out : List (WrBeat c.wr)}
    (h : WrWriting mem address n y done e rest cur out) :
    ∃ t, WrEnding mem address n (y.run j t) (done ++ [e]) rest := by
  by_contra hnone
  have hstay : ∀ t, WrWriting mem address n (y.run j t) done e rest
      ((y.engine cur out).run (y.engineInputs j) t).taken
      ((y.engine cur out).run (y.engineInputs j) t).emitted := by
    intro t
    induction t with
    | zero => exact h
    | succ t ih =>
      by_cases hlt : 64 * (((y.engine cur out).run (y.engineInputs j) t).emitted ++
          (y.run j t).sent (j t)).length < e.length
      · have hnext := ih.step hc hlist (hlegal t) hlt
        rw [WrSystem.run, ← SgWrSystem.engine_run]
        exact hnext
      · exact absurd ⟨t + 1, ih.complete hc hlist (hlegal t) (Nat.not_lt.mp hlt)⟩ hnone
  have hinv : ∀ t, WrInv e.address e.length ((y.engine cur out).run (y.engineInputs j) t) := by
    intro t
    rw [← SgWrSystem.engine_run]
    exact (hstay t).runs.inv
  have hfair : WrSystem.Fair (y.engineInputs j) := ⟨hoffered, haccepted⟩
  obtain ⟨t, ht⟩ := WrInv.emits hfair hinv
  obtain ⟨htaken, hemitted⟩ := ht t le_rfl
  have hlt : ((y.engine cur out).run (y.engineInputs j) t).emitted.length < wrBeats c.wr e.length :=
    (lt_wrBeats_iff hc.width _).mpr (hstay t).count_lt
  rw [hemitted, List.length_mapIdx] at hlt
  omega

lemma writing_leadsTo (hfair : x.Fair i) (done rest : List SgEntry) (e : SgEntry) :
    Progress.LeadsTo (fun t => ∃ cur out, WrWriting mem address n (x.run i t) done e rest cur out)
      (fun t => WrEnding mem address n (x.run i t) (done ++ [e]) rest) := by
  rintro t ⟨cur, out, h⟩
  have hshift : ∀ P : ℕ → Prop, (∀ t, ∃ u, t ≤ u ∧ P u) → ∀ v, ∃ u, v ≤ u ∧ P (t + u) := by
    intro P hP v
    obtain ⟨u, hu, hp⟩ := hP (t + v)
    obtain ⟨d, rfl⟩ := Nat.exists_eq_add_of_le hu
    exact ⟨v + d, Nat.le_add_right _ _, by rw [← Nat.add_assoc]; exact hp⟩
  obtain ⟨d, hd⟩ := writing_leaves (y := x.run i t) (j := fun u => i (t + u)) hc hlist
    (fun u => by rw [← SgWrSystem.run_add]; exact hlegal (t + u))
    (hshift _ hfair.offered) (hshift _ hfair.accepted) h
  rw [← SgWrSystem.run_add] at hd
  exact ⟨t + d, Nat.le_add_right t d, hd⟩

lemma chosen_leadsTo (hfair : x.Fair i) (done rest : List SgEntry) (e : SgEntry) :
    Progress.LeadsTo (fun t => WrChoosing mem address n (x.run i t) done (e :: rest))
      (fun t => WrEnding mem address n (x.run i t) (done ++ [e]) rest) := by
  by_cases hz : e = SgEntry.zero
  · subst hz
    have hpop : Progress.LeadsTo
        (fun t => WrChoosing mem address n (x.run i t) done (SgEntry.zero :: rest))
        (fun t => (x.run i t).EngineIdle ∧ WrPopping mem address n (x.run i t) done SgEntry.zero rest) :=
      Progress.leadsTo_of_step fun t h => ⟨h.idle, h.pop (hlegal t)⟩
    exact hpop.trans (Progress.leadsTo_of_step fun t h => h.2.skip (hlegal t) h.1)
  · have hpop : Progress.LeadsTo (fun t => WrChoosing mem address n (x.run i t) done (e :: rest))
        (fun t => WrLaunched (x.run i t) e ∧ WrPopping mem address n (x.run i t) done e rest) :=
      Progress.leadsTo_of_step fun t h => ⟨h.launch hc hlist hz, h.pop (hlegal t)⟩
    have hwrite : Progress.LeadsTo
        (fun t => WrLaunched (x.run i t) e ∧ WrPopping mem address n (x.run i t) done e rest)
        (fun t => ∃ cur out, WrWriting mem address n (x.run i t) done e rest cur out) :=
      Progress.leadsTo_of_step fun t h => ⟨_, _, h.2.write hc hlist (hlegal t) h.1⟩
    exact (hpop.trans hwrite).trans (writing_leadsTo hc hlist hlegal hfair done rest e)

lemma ending_leadsTo (hfair : x.Fair i) (done rest : List SgEntry) :
    Progress.LeadsTo (fun t => WrEnding mem address n (x.run i t) done rest)
      (fun t => WrFinished mem address n (x.run i t)) := by
  induction rest generalizing done with
  | nil => exact Progress.leadsTo_of_step fun t h => h.finish (hlegal t)
  | cons e rest ih =>
    have hchoose : Progress.LeadsTo (fun t => WrEnding mem address n (x.run i t) done (e :: rest))
        (fun t => WrChoosing mem address n (x.run i t) done (e :: rest)) :=
      Progress.leadsTo_of_step fun t h => h.choose (hlegal t)
    exact (hchoose.trans (chosen_leadsTo hc hlist hlegal hfair done rest e)).trans (ih (done ++ [e]))

end Phases

end Runs

/-! ### From the start of the list on -/

section Started

variable {s : SgWrState c} {i : ℕ → SgWrInput c}

lemma SgWrState.Quiet.load {j : SgWrInput c} (hquiet : s.Quiet)
    (hrise : s.reg.descWrReqSglistStartReg = false) (hlegal : (SgWrSystem.fresh s).Legal mem j)
    (hstart : j.descWrReqSglistStart = true) (haddr : j.descWrReqSglistAddress = address)
    (hlength : j.descWrReqSglistLength = 16 * n) :
    WrLoading address n ((SgWrSystem.fresh s).step j) := by
  have hidle : (SgWrSystem.fresh s).EngineIdle := ⟨hquiet.engine, hquiet.shut⟩
  have hv : j.sglistAxisTvalid = false := by
    by_contra hv
    obtain ⟨a, l, hreq, -⟩ := hlegal.reader (by simpa using hv)
    cases hreq
  have hw : s.dmaWrSglistFifoWren j = false := by simp [SgWrState.dmaWrSglistFifoWren, hv]
  have hnext : s.sgdmaNext j = { s.reg with
      sgdmaStateReg := .rdlist
      descWrReqSglistStartReg := true
      descWrReqSglistLengthReg := 16 * n
      descWrReqSglistAddressReg := address
      sgdmaStageCountReg := 0
      txWrSglistIrqReg := false } := by
    simp [SgWrState.sgdmaNext, hquiet.idle, hquiet.rden, hstart, hrise, haddr, hlength]
  have hreg : ((SgWrSystem.fresh s).step j).state.reg = s.sgdmaNext j := rfl
  refine ⟨?_, ?_, ?_, ?_, ⟨?_, ?_, ?_, hidle.step ?_, ?_, ?_, ?_⟩, ?_, ?_, ?_⟩
  · rw [hreg, hnext]
  · rw [hreg, hnext]
  · rw [hreg, hnext]
  · rw [hreg, hnext]
  · rw [hreg, hnext]
    exact hquiet.rden
  · rw [hreg, hnext]
  · rw [hreg, hnext]
  · simp [SgWrSystem.fresh, SgWrState.descTxWrStartInit, hquiet.idle]
  · rw [hidle.accepted]
    rfl
  · rw [hidle.emitted]
    rfl
  · simp [SgWrSystem.step, SgWrSystem.fresh, hnext]
  · simp [SgWrSystem.step, SgWrSystem.fresh, SgWrState.step, hw, hquiet.fifo, hquiet.rden]
  · simp [SgWrSystem.step, SgWrSystem.fresh, SgWrState.descTxRdReqStartInit, hquiet.idle]
  · simp [SgWrSystem.step, SgWrSystem.fresh, hw]

variable (hc : c.Supported) (hlist : WrListOk mem address n) (hquiet : s.Quiet)
  (hrise : s.reg.descWrReqSglistStartReg = false) (hstart : WrListStartsOnce i address n)
  (hlegal : ∀ t, ((SgWrSystem.fresh s).run i t).Legal mem (i t))
include hlist hquiet hrise hstart hlegal hc

/-- From the first cycle on the transfer is in one of its phases. -/
theorem wr_started_phase (t : ℕ) : SgWrPhase mem address n ((SgWrSystem.fresh s).run i (1 + t)) := by
  have hload : WrLoading address n ((SgWrSystem.fresh s).run i 1) :=
    hquiet.load hrise (hlegal 0) hstart.rise hstart.address hstart.length
  rw [SgWrSystem.run_add]
  refine SgWrPhase.run hc hlist (fun u => ?_) (.loading hload) (fun u hu => ?_) t
  · rw [← SgWrSystem.run_add]
    exact hlegal (1 + u)
  · rw [← SgWrSystem.run_add, Nat.add_comm 1 u]
    rw [Nat.add_comm 1 u] at hu
    exact (SgWrState.sgdmaNext_startReg _ _).trans (hstart.once u hu)

/-- When everything moves again and again the transfer finishes. -/
theorem wr_started_finishes (hfair : (SgWrSystem.fresh s).Fair i) :
    ∃ t₁, ∀ t, t₁ ≤ t → WrFinished mem address n ((SgWrSystem.fresh s).run i t) := by
  have hload : WrLoading address n ((SgWrSystem.fresh s).run i 1) :=
    hquiet.load hrise (hlegal 0) hstart.rise hstart.address hstart.length
  have hrecv : WrReceiving mem address n ((SgWrSystem.fresh s).run i 2) := hload.step hlist (hlegal 1)
  have hle := hrecv.received_lt
  obtain ⟨u, hu, hwait⟩ := wr_receiving_leadsTo hc hlist hlegal hfair _ 2
    ⟨hrecv, Nat.add_sub_cancel' hle.le⟩
  obtain ⟨v, hv, hchoose⟩ := wr_waiting_leadsTo hlegal hfair u hwait
  obtain ⟨e, rest, he⟩ := hlist.list.sgList_eq_cons
  rw [he] at hchoose
  obtain ⟨w, hw, hend⟩ := chosen_leadsTo hc hlist hlegal hfair [] rest e v hchoose
  obtain ⟨t₁, ht₁, hfin⟩ := ending_leadsTo hc hlist hlegal hfair _ rest w hend
  refine ⟨t₁, fun t ht => ?_⟩
  induction ht with
  | refl => exact hfin
  | @step t ht ih =>
    apply ih.step (hlegal t)
    intro hs
    obtain ⟨d, rfl⟩ : ∃ d, t = d + 1 := ⟨t - 1, by have : t₁ ≤ t := ht; omega⟩
    exact (SgWrState.sgdmaNext_startReg _ _).trans (hstart.once d hs)

end Started

/-- A list of at most 512 entries, each padding or a page-aligned segment, on a bus of 512 bits with
payloads of up to 512 bytes. At any time the stream beats accepted and the TLP beats sent are the
first beats of the segments: no stream beat is accepted outside of a segment, and every
segment has gone out as the TLPs of its descriptor. When the list reader, the stream and the
TLP port move again and again all segments have been written, and the write side is idle with an
empty list FIFO. -/
theorem c2h_sg_transfer (hc : c.Supported) (mem : HostMem) (address n : ℕ) (s : SgWrState c)
    (i : ℕ → SgWrInput c) (hlist : WrListOk mem address n) (hquiet : s.Quiet)
    (hrise : s.reg.descWrReqSglistStartReg = false) (hstart : WrListStartsOnce i address n)
    (hlegal : ∀ t, ((SgWrSystem.fresh s).run i t).Legal mem (i t)) :
    (∀ t, WriteBegins c.wr (sgList mem address n) ((SgWrSystem.fresh s).run i t).accepted
      ((SgWrSystem.fresh s).run i t).emitted) ∧
    ((SgWrSystem.fresh s).Fair i → ∃ t₁, ∀ t, t₁ ≤ t →
      Written c.wr (sgList mem address n) ((SgWrSystem.fresh s).run i t).accepted
        ((SgWrSystem.fresh s).run i t).emitted ∧
      ((SgWrSystem.fresh s).run i t).state.Quiet) := by
  constructor
  · intro t
    match t with
    | 0 => exact (Written.nil c.wr).begins (List.nil_append _)
    | t + 1 =>
      rw [Nat.add_comm]
      exact (wr_started_phase hc hlist hquiet hrise hstart hlegal t).begins hc hlist
  · intro hfair
    obtain ⟨t₁, ht₁⟩ := wr_started_finishes hc hlist hquiet hrise hstart hlegal hfair
    exact ⟨t₁, fun t ht => ⟨(ht₁ t ht).resting.written, (ht₁ t ht).quiet⟩⟩

/-! ### A list reader that delivers at once -/

namespace SgWrSystem

/-- Beat `b` of a descriptor, as the list reader puts it on its stream. -/
def readerBeat (c : RdConfig) (mem : HostMem) (a l b : ℕ) : AxisBeat c.busBytes where
  tdata := fun j => mem ((a + 64 * b + j) % 2 ^ 64)
  tkeep := fun j => decide (64 * b + j < l)
  tlast := decide (b + 1 = (l + 63) / 64)

lemma readerBeat_ok (c : RdConfig) (mem : HostMem) (a l b : ℕ) :
    BeatOk mem a l b (readerBeat c mem a l b) :=
  ⟨fun _ _ => rfl, fun _ => rfl, rfl⟩

/-- The descriptor that the list reader has been asked for. -/
def descriptor (x : SgWrSystem c) : ℕ × ℕ := x.requested.headD (0, 0)

/-- The inputs of a cycle in which the list reader delivers what is missing, the transfer is started
on the interrupt, and the stream and the TLP port move. -/
def serve (mem : HostMem) (address n t : ℕ) (x : SgWrSystem c) : SgWrInput c where
  descWrReqSglistLength := 16 * n
  descWrReqSglistAddress := address
  descWrReqSglistStart := t == 0
  descWrReqSgdmaStart := x.irqSeen
  sglistAxis := readerBeat c.rd mem x.descriptor.1 x.descriptor.2 x.received
  sglistAxisTvalid := x.requested.length == 1 && decide (x.received < (x.descriptor.2 + 63) / 64)
  txWrReqTlpReady := true
  sAxisTlp := ⟨fun _ => 0, fun _ => true⟩
  sAxisTlpTvalid := true

def served (mem : HostMem) (address n : ℕ) (x : SgWrSystem c) : ℕ → SgWrSystem c
  | 0 => x
  | t + 1 => (x.served mem address n t).step ((x.served mem address n t).serve mem address n t)

def servedInput (mem : HostMem) (address n : ℕ) (x : SgWrSystem c) (t : ℕ) : SgWrInput c :=
  (x.served mem address n t).serve mem address n t

lemma run_servedInput (mem : HostMem) (address n : ℕ) (x : SgWrSystem c) (t : ℕ) :
    x.run (x.servedInput mem address n) t = x.served mem address n t := by
  induction t with
  | zero => rfl
  | succ t ih => rw [run, ih, served, servedInput]

lemma serve_legal (mem : HostMem) (address n : ℕ) (x : SgWrSystem c) (t : ℕ) :
    (x.run (x.servedInput mem address n) t).Legal mem (x.servedInput mem address n t) := by
  rw [run_servedInput]
  refine ⟨fun hv => ?_, id⟩
  simp only [servedInput, serve, Bool.and_eq_true, beq_iff_eq, decide_eq_true_eq] at hv
  obtain ⟨d, hd⟩ := List.length_eq_one_iff.mp hv.1
  have hdesc : (x.served mem address n t).descriptor = d := by simp [descriptor, hd]
  exact ⟨_, _, by rw [hd, hdesc], hv.2, readerBeat_ok _ _ _ _ _⟩

lemma servedInput_starts (mem : HostMem) (address n : ℕ) (x : SgWrSystem c) :
    WrListStartsOnce (x.servedInput mem address n) address n := by
  refine ⟨rfl, rfl, rfl, fun t ht => ?_⟩
  simp [servedInput, serve] at ht

lemma served_fair (mem : HostMem) (address n : ℕ) (x : SgWrSystem c) :
    x.Fair (x.servedInput mem address n) := by
  refine ⟨fun t a l hreq hlt => ⟨t, le_rfl, ?_⟩, fun t hseen => ⟨t, le_rfl, ?_⟩, fun t => ⟨t, le_rfl, rfl⟩,
    fun t => ⟨t, le_rfl, rfl⟩⟩
  · rw [run_servedInput] at hreq hlt
    simp [servedInput, serve, descriptor, hreq, hlt]
  · rw [run_servedInput] at hseen
    exact hseen

end SgWrSystem

/-- A list with four segments, with payloads of 512 bytes, out of reset. -/
theorem c2h_sg_transfer_served :
    let c : SgWrConfig := ⟨⟨6, 5, 0, 2, by decide, by decide⟩, ⟨6, 6, 0, 2, by decide, by decide⟩, rfl⟩
    let x := SgWrSystem.fresh (SgWrState.reset c)
    ∃ t₁, ∀ t, t₁ ≤ t →
      (x.run (x.servedInput sampleList 4096 5) t).accepted.length = 14 ∧
      (x.run (x.servedInput sampleList 4096 5) t).state.reg.sgdmaStateReg = .idle := by
  intro c x
  have hseg : (sgList sampleList 4096 5).all (fun e => e.length ≤ 2 ^ 32 - 64 ∧
      (e = SgEntry.zero ∨ e.address % 4096 = 0 ∧ 1 ≤ e.length)) := by
    decide +kernel
  have hall := fun e he => of_decide_eq_true (List.all_eq_true.mp hseg e he)
  have hlist : WrListOk sampleList 4096 5 := by
    refine ⟨⟨by decide, by decide, by decide, by decide, fun e he hz => ?_⟩, fun e he => (hall e he).1⟩
    exact (hall e he).2.resolve_left hz
  obtain ⟨t₁, ht₁⟩ := (c2h_sg_transfer (c := c) ⟨rfl, le_rfl⟩ sampleList 4096 5 (SgWrState.reset c)
    (x.servedInput sampleList 4096 5) hlist (sgWrReset_quiet c) rfl (SgWrSystem.servedInput_starts sampleList 4096 5 x)
    (SgWrSystem.serve_legal sampleList 4096 5 x)).2 (SgWrSystem.served_fair sampleList 4096 5 x)
  have hn : ((segments (sgList sampleList 4096 5)).map SgEntry.beats).sum = 14 := by decide +kernel
  refine ⟨t₁, fun t ht => ?_⟩
  obtain ⟨hw, hidle⟩ := ht₁ t ht
  exact ⟨hw.length_eq.trans hn, hidle.idle⟩

end FpgaPcie
