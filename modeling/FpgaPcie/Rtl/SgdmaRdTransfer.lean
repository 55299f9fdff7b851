import FpgaPcie.Rtl.SgdmaRdPhases

/-!
# List transfers of the read side

Over a whole run the phases follow each other: the engine is launched for the list and then once
for each segment in list order, the stream carries the segments one after the other, and with
a fair host and consumer the read side is idle again with its list FIFO empty.
-/

namespace FpgaPcie

variable {c : RdConfig} {mem : HostMem} {address n : ℕ}

/-- The phases of a transfer behind its list. -/
inductive SgTail (mem : HostMem) (address n : ℕ) (x : SgRdSystem c) : Prop
  | choosing (done rest) (h : Choosing mem address n x done rest)
  | popping (done e rest) (h : Popping mem address n x done e rest)
  | skipping (done rest) (h : Skipping mem address n x done rest)
  | streaming (done e rest cur g) (h : Streaming mem address n x done e rest cur g)
  | finished (h : Finished mem address n x)

/-- The phases of a transfer. -/
inductive SgPhase (mem : HostMem) (address n : ℕ) (x : SgRdSystem c) : Prop
  | loading (h : Loading address n x)
  | receiving (cur g) (h : Receiving mem address n x cur g)
  | waiting (h : Waiting mem address n x)
  | choosing (done rest) (h : Choosing mem address n x done rest)
  | popping (done e rest) (h : Popping mem address n x done e rest)
  | skipping (done rest) (h : Skipping mem address n x done rest)
  | streaming (done e rest cur g) (h : Streaming mem address n x done e rest cur g)
  | finished (h : Finished mem address n x)

lemma SgTail.phase {x : SgRdSystem c} (h : SgTail mem address n x) : SgPhase mem address n x := by
  cases h with
  | choosing done rest h => exact .choosing _ _ h
  | popping done e rest h => exact .popping _ _ _ h
  | skipping done rest h => exact .skipping _ _ h
  | streaming done e rest cur g h => exact .streaming _ _ _ _ _ h
  | finished h => exact .finished h

theorem SgTail.step {x : SgRdSystem c} {i : SgRdInput c} (hc : c.Wide512)
    (hlist : ListOk mem address n) (hhost : (x.engine []).Legal mem (x.state.engineInput i))
    (hlow : i.descRdReqSglistStart = true → x.state.reg.descRdReqSglistStartDReg = true)
    (h : SgTail mem address n x) : SgTail mem address n (x.step i) := by
  cases h with
  | choosing done rest h =>
    cases rest with
    | nil => exact .finished (h.finish hc hlist)
    | cons e rest => exact .popping _ _ _ (h.pop hc hlist)
  | popping done e rest h =>
    by_cases hz : e = SgEntry.zero
    · subst hz
      exact .skipping _ _ (h.skip hc hlist)
    · exact .streaming _ _ _ _ _ (h.launch hc hlist hz)
  | skipping done rest h => exact .choosing _ _ (h.step hc hlist)
  | streaming done e rest cur g h =>
    by_cases hlt : (cur ++ x.taken i).length < e.beats
    · exact .streaming _ _ _ _ _ (h.step hc hlist hhost hlt)
    · exact .choosing _ _ (h.complete hc hlist hhost (Nat.not_lt.mp hlt))
  | finished h => exact .finished (h.step hc hlist hlow)

theorem SgPhase.step {x : SgRdSystem c} {i : SgRdInput c} (hc : c.Wide512)
    (hlist : ListOk mem address n) (hlegal : x.Legal mem i)
    (hlow : i.descRdReqSglistStart = true → x.state.reg.descRdReqSglistStartDReg = true)
    (h : SgPhase mem address n x) : SgPhase mem address n (x.step i) := by
  have htail : SgTail mem address n x → SgPhase mem address n (x.step i) := fun h =>
    (h.step hc hlist hlegal.host hlow).phase
  cases h with
  | loading h => exact .receiving _ _ (h.step hc hlist)
  | receiving cur g h =>
    have hs := h.not_started hlegal
    by_cases hlt : (cur ++ x.taken i).length < sgBeats n
    · exact .receiving _ _ (h.step hc hlist hlegal.host (by simp [hs]) hlt)
    · exact .waiting (h.complete hc hlist hlegal.host hs (Nat.not_lt.mp hlt))
  | waiting h =>
    cases hs : i.descRdReqSgdmaStart with
    | false => exact .waiting (h.step hc hlist hs)
    | true => exact .choosing _ _ (h.started hc hlist hs)
  | choosing done rest h => exact htail (.choosing _ _ h)
  | popping done e rest h => exact htail (.popping _ _ _ h)
  | skipping done rest h => exact htail (.skipping _ _ h)
  | streaming done e rest cur g h => exact htail (.streaming _ _ _ _ _ h)
  | finished h => exact htail (.finished h)

/-! ### What a phase shows on the outside -/

/-- The beats begin the segments of `entries`: whole segments in order, and then the first
beats of the next one. -/
def Begins (mem : HostMem) (entries : List SgEntry) (beats : List (AxisBeat c.busBytes)) : Prop :=
  ∃ done rest whole part, entries = done ++ rest ∧ Streams mem done whole ∧ beats = whole ++ part ∧
    (part = [] ∨ ∃ e ∈ rest.head?, e ≠ SgEntry.zero ∧ StreamOk mem e.address e.length part ∧
      part.length ≤ e.beats)

lemma descriptors_initial (address n : ℕ) (done rest : List SgEntry) :
    descriptors address n done <+: descriptors address n (done ++ rest) := by
  refine ⟨(segments rest).map fun e => (e.address, e.length), ?_⟩
  simp [descriptors, segments_append]

section Outside

variable {x : SgRdSystem c} {done rest : List SgEntry}

lemma SgRdSystem.offered_eq_nil (h : x.EngineQuiet) : x.offered = [] := by
  simp [offered, SgRdState.mAxisTlpTvalid, h.quiet.outValid]

lemma Streams.begins {beats : List (AxisBeat c.busBytes)} (h : Streams mem done beats)
    (rest : List SgEntry) : Begins mem (done ++ rest) beats :=
  ⟨done, rest, beats, [], rfl, h, (List.append_nil _).symm, .inl rfl⟩

lemma Resting.shows (h : Resting mem address n x done rest) :
    x.launches <+: descriptors address n (sgList mem address n) ∧
      Begins mem (sgList mem address n) (x.accepted ++ x.offered) := by
  rw [h.launches, ← h.entries, SgRdSystem.offered_eq_nil h.engine, List.append_nil]
  exact ⟨descriptors_initial address n done rest, h.accepted.begins _⟩

lemma RdInv.offered_ok {a l : ℕ} {g : RdProgress} {cur : List (AxisBeat c.busBytes)}
    (hs : x.state.reg.sgdmaRdStateReg = .endl) (h : RdInv mem a l (x.engine cur) g) :
    StreamOk mem a l (cur ++ x.offered) ∧ (cur ++ x.offered).length ≤ (l + 63) / 64 := by
  obtain ⟨q, hq⟩ := h.out.queue
  have he := h.emitted_le
  have hpending : cur ++ (x.engine cur).engine.out.pending q = (cur ++ x.offered) ++ q := by
    simp [OutFifo.pending, SgRdSystem.engine, SgRdSystem.offered, SgRdState.mAxisTlpTvalid,
      SgRdState.mAxisTlp, hs]
    rfl
  have hbeats := hq.beats
  have hcount := hq.count
  simp only [SgRdSystem.engine] at hbeats hcount hpending
  rw [hpending] at hbeats hcount
  rw [List.length_append] at hcount
  exact ⟨hbeats.left, by omega⟩

lemma Streaming.shows {e : SgEntry} {cur : List (AxisBeat c.busBytes)} {g : RdProgress}
    (h : Streaming mem address n x done e rest cur g) :
    x.launches <+: descriptors address n (sgList mem address n) ∧
      Begins mem (sgList mem address n) (x.accepted ++ x.offered) := by
  obtain ⟨beats, hb, ha⟩ := h.accepted
  obtain ⟨hok, hle⟩ := h.inv.offered_ok h.state
  have he := h.entries
  constructor
  · have hp := descriptors_initial address n (done ++ [e]) rest
    rw [← List.append_cons, he] at hp
    rw [h.launches]
    exact hp
  · rw [ha, ← he, List.append_assoc]
    exact ⟨done, e :: rest, beats, _, rfl, hb, rfl, .inr ⟨e, rfl, h.ne_zero, hok, hle⟩⟩

theorem SgPhase.shows (h : SgPhase mem address n x) :
    x.launches <+: descriptors address n (sgList mem address n) ∧
      Begins mem (sgList mem address n) (x.accepted ++ x.offered) := by
  cases h with
  | loading h =>
    rw [h.launches, h.accepted, SgRdSystem.offered_eq_nil h.engine]
    exact ⟨List.nil_prefix, (Streams.nil mem).begins (sgList mem address n)⟩
  | receiving cur g h =>
    have hoff : x.offered = [] := by
      simp [SgRdSystem.offered, SgRdState.mAxisTlpTvalid, h.state]
    rw [h.launches, h.accepted, hoff]
    exact ⟨descriptors_initial address n [] _, (Streams.nil mem).begins (sgList mem address n)⟩
  | waiting h => exact h.resting.shows
  | choosing done rest h => exact h.resting.shows
  | popping done e rest h =>
    rw [h.launches, ← h.entries, SgRdSystem.offered_eq_nil h.engine, List.append_nil]
    exact ⟨descriptors_initial address n done _, h.accepted.begins _⟩
  | skipping done rest h => exact h.resting.shows
  | streaming done e rest cur g h => exact h.shows
  | finished h => exact h.resting.shows

lemma Finished.outcome (h : Finished mem address n x) :
    x.launches = descriptors address n (sgList mem address n) ∧
      Streams mem (sgList mem address n) x.accepted ∧ x.state.Quiet ∧ ∀ tag, x.owed tag = [] := by
  have hl := h.resting.listed
  have hwr := h.wrEn
  refine ⟨h.resting.launches, h.resting.accepted,
    ⟨h.state, h.resting.startReg, hwr, h.resting.rdEn, ?_, h.resting.engine.quiet⟩,
    h.resting.engine.owed⟩
  rw [SgRdSystem.listed, hwr, if_neg Bool.false_ne_true, List.append_nil] at hl
  exact hl

end Outside

/-! ### Runs -/

section Runs

variable {x : SgRdSystem c} {i : ℕ → SgRdInput c}

lemma SgRdSystem.run_add (x : SgRdSystem c) (i : ℕ → SgRdInput c) (m k : ℕ) :
    x.run i (m + k) = (x.run i m).run (fun u => i (m + u)) k := by
  induction k with
  | zero => rfl
  | succ k ih => rw [← Nat.add_assoc, run, ih, run]

lemma SgRdSystem.startDReg_succ (t : ℕ) :
    (x.run i (t + 1)).state.reg.descRdReqSglistStartDReg = (i t).descRdReqSglistStart := by
  rw [run, step_reg, SgRdState.sgdmaRdNext]
  dsimp only
  split
  · rfl
  · split <;> rfl
  · rfl
  · split
    · rfl
    · split <;> rfl
  · rfl

/-- The inputs of the engine inside. -/
def SgRdSystem.engineInputs (x : SgRdSystem c) (i : ℕ → SgRdInput c) (t : ℕ) : RdInput c :=
  (x.run i t).state.engineInput (i t)

lemma SgRdSystem.engine_run (cur : List (AxisBeat c.busBytes)) (t : ℕ) :
    (x.run i t).engine ((x.engine cur).run (x.engineInputs i) t).delivered =
      (x.engine cur).run (x.engineInputs i) t := by
  induction t with
  | zero => rfl
  | succ t ih =>
    rw [RdSystem.run, ← ih]
    rfl

/-- A descriptor that the engine runs is delivered. So a phase `P` in which it runs, whose
consumer is ready again and again and which can only be left for `Q`, is left. -/
lemma running_leaves {a l : ℕ} {P : SgRdSystem c → List (AxisBeat c.busBytes) → RdProgress → Prop}
    {Q : SgRdSystem c → Prop} (hc : c.Wide512) (ha : a % 4 = 0) (hpos : 0 < l) (hlen : l < 2 ^ 32)
    (hinv : ∀ x cur g, P x cur g → RdInv mem a l (x.engine cur) g ∧ cur.length < (l + 63) / 64 ∧
      x.state.reg.descRdReqSglistStartReg = false)
    (hready : ∀ x cur g j, P x cur g → j.mAxisTlpTready = true → x.state.cpldRxAxisTready j = true)
    (hstep : ∀ x cur g j, x.Legal mem j → P x cur g →
      (∃ g', P (x.step j) (cur ++ x.taken j) g') ∨ Q (x.step j))
    (hlegal : ∀ t, (x.run i t).Legal mem (i t)) (hfair : x.Fair i)
    {cur : List (AxisBeat c.busBytes)} {g : RdProgress} (h : P x cur g) : ∃ t, Q (x.run i t) := by
  by_contra hnone
  have hstay : ∀ t, ∃ g', P (x.run i t) ((x.engine cur).run (x.engineInputs i) t).delivered g' := by
    intro t
    induction t with
    | zero => exact ⟨g, h⟩
    | succ t ih =>
      obtain ⟨g', hp⟩ := ih
      obtain hnext | hq := hstep _ _ _ (i t) (hlegal t) hp
      · have hdel : ((x.engine cur).run (x.engineInputs i) (t + 1)).delivered =
            ((x.engine cur).run (x.engineInputs i) t).delivered ++ (x.run i t).taken (i t) := by
          rw [RdSystem.run, ← SgRdSystem.engine_run]
          rfl
        rw [hdel]
        exact hnext
      · exact absurd ⟨t + 1, hq⟩ hnone
  have hhost : ∀ t, ((x.engine cur).run (x.engineInputs i) t).Legal mem (x.engineInputs i t) := by
    intro t
    rw [← SgRdSystem.engine_run]
    exact ⟨(hlegal t).host.ready, (hlegal t).host.answers⟩
  have hserved : (x.engine cur).Fair (x.engineInputs i) := by
    refine ⟨fun t tag hne => ?_, fun t => ?_⟩
    · rw [← SgRdSystem.engine_run] at hne
      exact hfair.answered t tag hne
    · obtain ⟨u, hu, hr⟩ := hfair.consumed t
      obtain ⟨g', hp⟩ := hstay u
      exact ⟨u, hu, hready _ _ _ _ hp hr⟩
  have hlow : ∀ t, (x.engineInputs i t).descTxRdReqStart = false := by
    intro t
    obtain ⟨g', hp⟩ := hstay t
    exact (hinv _ _ _ hp).2.2
  obtain ⟨t, ht⟩ := (hinv _ _ _ h).1.delivers hc ha hpos hlen hlow hhost hserved
  obtain ⟨g', hp⟩ := hstay t
  have := (hinv _ _ _ hp).2.1
  omega

lemma SgRdSystem.Fair.shift (h : x.Fair i) (t : ℕ) : (x.run i t).Fair fun u => i (t + u) := by
  refine ⟨fun u tag hne => ?_, fun u => ?_, fun u hseen => ?_⟩
  · rw [← SgRdSystem.run_add] at hne
    obtain ⟨v, hv, hr⟩ := h.answered (t + u) tag hne
    obtain ⟨d, rfl⟩ := Nat.exists_eq_add_of_le hv
    exact ⟨u + d, Nat.le_add_right _ _, by rw [← Nat.add_assoc]; exact hr⟩
  · obtain ⟨v, hv, hr⟩ := h.consumed (t + u)
    obtain ⟨d, rfl⟩ := Nat.exists_eq_add_of_le hv
    exact ⟨u + d, Nat.le_add_right _ _, by rw [← Nat.add_assoc]; exact hr⟩
  · rw [← SgRdSystem.run_add] at hseen
    obtain ⟨v, hv, hr⟩ := h.started (t + u) hseen
    obtain ⟨d, rfl⟩ := Nat.exists_eq_add_of_le hv
    exact ⟨u + d, Nat.le_add_right _ _, by rw [← Nat.add_assoc]; exact hr⟩

lemma legal_shift (hlegal : ∀ t, (x.run i t).Legal mem (i t)) (t u : ℕ) :
    ((x.run i t).run (fun v => i (t + v)) u).Legal mem (i (t + u)) := by
  rw [← SgRdSystem.run_add]
  exact hlegal (t + u)

lemma waiting_leadsTo (hc : c.Wide512) (hlist : ListOk mem address n) (hfair : x.Fair i) :
    Progress.LeadsTo (fun t => Waiting mem address n (x.run i t))
      (fun t => Choosing mem address n (x.run i t) [] (sgList mem address n)) := by
  apply Progress.leadsTo_of_event (E := fun t => (i t).descRdReqSgdmaStart = true)
  · intro t h he
    exact h.step hc hlist (by simpa using he)
  · intro t h he
    exact h.started hc hlist he
  · intro t h
    exact hfair.started t h.irqSeen

section Phases

variable (hc : c.Wide512) (hlist : ListOk mem address n)
  (hlegal : ∀ t, (x.run i t).Legal mem (i t))
include hc hlist hlegal

theorem SgPhase.run (h : SgPhase mem address n x)
    (hlow : ∀ t, (i t).descRdReqSglistStart = true →
      (x.run i t).state.reg.descRdReqSglistStartDReg = true) (t : ℕ) :
    SgPhase mem address n (x.run i t) := by
  induction t with
  | zero => exact h
  | succ t ih => exact ih.step hc hlist (hlegal t) (hlow t)

lemma receiving_leadsTo (hfair : x.Fair i) :
    Progress.LeadsTo (fun t => ∃ cur g, Receiving mem address n (x.run i t) cur g)
      (fun t => Waiting mem address n (x.run i t)) := by
  intro t ht
  obtain ⟨cur, g, h⟩ := ht
  have hn := hlist.pos
  have hle := hlist.le
  have haddr := hlist.aligned
  obtain ⟨d, hd⟩ := running_leaves (x := x.run i t) (i := fun u => i (t + u))
    (P := fun x cur g => Receiving mem address n x cur g) (Q := fun x => Waiting mem address n x)
    (a := address) (l := 16 * n) hc (by omega) (by omega) (by omega)
    (fun _ _ _ h => ⟨h.inv, h.cur_lt, h.startReg⟩)
    (fun y cur g j h _ => by
      simp [SgRdState.cpldRxAxisTready, h.state, SgRdSystem.not_alfull hc (h.listed_le hlist)])
    (fun y cur g j hj h => by
      by_cases hlt : (cur ++ y.taken j).length < sgBeats n
      · exact .inl ⟨_, h.step hc hlist hj.host (by simp [h.not_started hj]) hlt⟩
      · exact .inr (h.complete hc hlist hj.host (h.not_started hj) (Nat.not_lt.mp hlt)))
    (legal_shift hlegal t) (hfair.shift t) h
  rw [← SgRdSystem.run_add] at hd
  exact ⟨t + d, Nat.le_add_right t d, hd⟩

lemma streaming_leadsTo (hfair : x.Fair i) (done rest : List SgEntry) (e : SgEntry) :
    Progress.LeadsTo (fun t => ∃ cur g, Streaming mem address n (x.run i t) done e rest cur g)
      (fun t => Choosing mem address n (x.run i t) (done ++ [e]) rest) := by
  intro t ht
  obtain ⟨cur, g, h⟩ := ht
  obtain ⟨haddr, hpos⟩ := hlist.segment e (by simp [← h.entries]) h.ne_zero
  obtain ⟨d, hd⟩ := running_leaves (x := x.run i t) (i := fun u => i (t + u))
    (P := fun x cur g => Streaming mem address n x done e rest cur g)
    (Q := fun x => Choosing mem address n x (done ++ [e]) rest)
    (a := e.address) (l := e.length) hc (by omega) (by omega) e.length_lt
    (fun _ _ _ h => ⟨h.inv, h.cur_lt, h.startReg⟩)
    (fun y cur g j h hr => by simp [SgRdState.cpldRxAxisTready, h.state, hr])
    (fun y cur g j hj h => by
      by_cases hlt : (cur ++ y.taken j).length < e.beats
      · exact .inl ⟨_, h.step hc hlist hj.host hlt⟩
      · exact .inr (h.complete hc hlist hj.host (Nat.not_lt.mp hlt)))
    (legal_shift hlegal t) (hfair.shift t) h
  rw [← SgRdSystem.run_add] at hd
  exact ⟨t + d, Nat.le_add_right t d, hd⟩

lemma choosing_leadsTo (hfair : x.Fair i) (done rest : List SgEntry) :
    Progress.LeadsTo (fun t => Choosing mem address n (x.run i t) done rest)
      (fun t => Finished mem address n (x.run i t)) := by
  induction rest generalizing done with
  | nil => exact Progress.leadsTo_of_step fun t h => h.finish hc hlist
  | cons e rest ih =>
    have hpop : Progress.LeadsTo (fun t => Choosing mem address n (x.run i t) done (e :: rest))
        (fun t => Popping mem address n (x.run i t) done e rest) :=
      Progress.leadsTo_of_step fun t h => h.pop hc hlist
    apply (hpop.trans ?_).trans (ih (done ++ [e]))
    by_cases hz : e = SgEntry.zero
    · subst hz
      have hskip : Progress.LeadsTo
          (fun t => Popping mem address n (x.run i t) done SgEntry.zero rest)
          (fun t => Skipping mem address n (x.run i t) (done ++ [SgEntry.zero]) rest) :=
        Progress.leadsTo_of_step fun t h => h.skip hc hlist
      exact hskip.trans (Progress.leadsTo_of_step fun t h => h.step hc hlist)
    · have hlaunch : Progress.LeadsTo (fun t => Popping mem address n (x.run i t) done e rest)
          (fun t => ∃ cur g, Streaming mem address n (x.run i t) done e rest cur g) :=
        Progress.leadsTo_of_step fun t h => ⟨_, _, h.launch hc hlist hz⟩
      exact hlaunch.trans (streaming_leadsTo hc hlist hlegal hfair done rest e)

end Phases

end Runs

/-! ### One `tlast` for each segment -/

lemma StreamOk.countP_tlast {a l : ℕ} (hpos : 1 ≤ l) {beats : List (AxisBeat c.busBytes)}
    (h : StreamOk mem a l beats) (hle : beats.length ≤ (l + 63) / 64) :
    beats.countP (·.tlast) = if beats.length = (l + 63) / 64 then 1 else 0 := by
  induction beats using List.reverseRecOn with
  | nil =>
    rw [List.countP_nil, List.length_nil, if_neg (by omega)]
  | append_singleton beats beat ih =>
    rw [List.length_append, List.length_singleton] at hle
    have hlast := (h beats.length beat List.getElem?_concat_length).tlast
    rw [List.countP_append, ih h.left (by omega), if_neg (by omega), List.countP_singleton, hlast,
      List.length_append, List.length_singleton, Nat.zero_add]
    simp

lemma Streams.countP_tlast {entries : List SgEntry} {beats : List (AxisBeat c.busBytes)}
    (h : Streams mem entries beats) (hpos : ∀ e ∈ segments entries, 1 ≤ e.length) :
    beats.countP (·.tlast) = (segments entries).length := by
  obtain ⟨parts, hparts, rfl⟩ := h
  generalize segments entries = es at hparts hpos
  induction hparts with
  | nil => rfl
  | @cons e part es parts hp _ ih =>
    have he := hp.ok.countP_tlast (hpos e List.mem_cons_self) hp.length_eq.le
    have hlen : part.length = (e.length + 63) / 64 := hp.length_eq
    rw [if_pos hlen] at he
    rw [List.flatten_cons, List.countP_append, he, List.length_cons,
      ih fun e he => hpos e (List.mem_cons_of_mem _ he), Nat.add_comm]

/-! ### From the start of the list on -/

section Started

variable {s : SgRdState c} {i : ℕ → SgRdInput c}

/-- Nothing has happened yet, except that the FSM may have seen the rising edge. -/
structure Opening (x : SgRdSystem c) (state : SgdmaRdState) : Prop where
  state : x.state.reg.sgdmaRdStateReg = state
  startReg : x.state.reg.descRdReqSglistStartReg = false
  rdEn : x.state.reg.dmaRdSglistFifoRdEnReg = false
  engine : x.EngineQuiet
  listed : x.listed = []
  launches : x.launches = []
  accepted : x.accepted = []
  irqSeen : x.irqSeen = false

lemma Opening.shows {x : SgRdSystem c} {state : SgdmaRdState} (h : Opening x state) :
    x.launches <+: descriptors address n (sgList mem address n) ∧
      Begins mem (sgList mem address n) (x.accepted ++ x.offered) := by
  rw [h.launches, h.accepted, SgRdSystem.offered_eq_nil h.engine]
  exact ⟨List.nil_prefix, (Streams.nil mem).begins (sgList mem address n)⟩

lemma SgRdState.Quiet.opening (h : s.Quiet) : Opening (SgRdSystem.fresh s) .idle := by
  refine ⟨h.idle, h.startReg, h.rdEn, ⟨h.engine, fun _ => rfl⟩, ?_, rfl, rfl, rfl⟩
  simp [SgRdSystem.listed, SgRdSystem.fresh, h.fifo, h.wrEn]

lemma Opening.rise {x : SgRdSystem c} {j : SgRdInput c} (hc : c.Wide512) (h : Opening x .idle)
    (hr : (j.descRdReqSglistStart && !x.state.reg.descRdReqSglistStartDReg) = true) :
    Opening (x.step j) .rdlist := by
  refine ⟨?_, ?_, ?_, h.engine.step h.startReg, ?_, ?_, ?_, ?_⟩
  · simp [SgRdState.sgdmaRdNext, h.state, hr]
  · simp [SgRdState.sgdmaRdNext, h.state, h.startReg]
  · simp [SgRdState.sgdmaRdNext, h.state]
  · rw [SgRdSystem.listed_step hc (by simp [h.listed]) h.rdEn
      (by simp [SgRdState.sgdmaRdNext, h.state])]
    exact h.listed
  · rw [SgRdSystem.launches_step h.startReg]
    exact h.launches
  · rw [h.engine.accepted]
    exact h.accepted
  · simp [SgRdSystem.step, SgRdState.sgdmaRdNext, h.state, h.irqSeen]

lemma Opening.load {x : SgRdSystem c} {j : SgRdInput c} (hc : c.Wide512) (h : Opening x .rdlist)
    (ha : j.descRdReqSglistAddress = address) (hl : j.descRdReqSglistLength = 16 * n) :
    Loading address n (x.step j) := by
  refine ⟨?_, ?_, ?_, ?_, ?_, h.engine.step h.startReg, ?_, ?_, ?_, ?_⟩
  · simp [SgRdState.sgdmaRdNext, h.state, h.startReg]
  · simp [SgRdState.sgdmaRdNext, h.state, h.startReg]
  · simp [SgRdState.sgdmaRdNext, h.state, h.startReg, ha]
  · simp [SgRdState.sgdmaRdNext, h.state, h.startReg, hl]
  · simp [SgRdState.sgdmaRdNext, h.state, h.startReg]
  · rw [SgRdSystem.listed_step hc (by simp [h.listed]) h.rdEn
      (by simp [SgRdState.sgdmaRdNext, h.state, h.startReg])]
    exact h.listed
  · rw [SgRdSystem.launches_step h.startReg]
    exact h.launches
  · rw [h.engine.accepted]
    exact h.accepted
  · simp [SgRdSystem.step, SgRdState.sgdmaRdNext, h.state, h.startReg, h.irqSeen]

lemma opening_run (hc : c.Wide512) (hquiet : s.Quiet) (hrise : s.reg.descRdReqSglistStartDReg = false)
    (hstart : ListStartsOnce i address n) :
    Opening ((SgRdSystem.fresh s).run i 1) .rdlist ∧
      Loading address n ((SgRdSystem.fresh s).run i 2) := by
  have hfirst : Opening ((SgRdSystem.fresh s).run i 1) .rdlist :=
    hquiet.opening.rise hc (by simp [SgRdSystem.fresh, SgRdSystem.run, hstart.rise, hrise])
  exact ⟨hfirst, hfirst.load hc hstart.address hstart.length⟩

/-- From the second cycle on the transfer is in one of its phases. -/
theorem started_phase (hc : c.Wide512) (hlist : ListOk mem address n) (hquiet : s.Quiet)
    (hrise : s.reg.descRdReqSglistStartDReg = false) (hstart : ListStartsOnce i address n)
    (hlegal : ∀ t, ((SgRdSystem.fresh s).run i t).Legal mem (i t)) (t : ℕ) :
    SgPhase mem address n ((SgRdSystem.fresh s).run i (2 + t)) := by
  obtain ⟨-, hload⟩ := opening_run hc hquiet hrise hstart
  rw [SgRdSystem.run_add]
  refine SgPhase.run hc hlist (legal_shift hlegal 2) (.loading hload) (fun u hu => ?_) t
  have htime : 2 + u = u + 1 + 1 := by omega
  rw [← SgRdSystem.run_add, htime, SgRdSystem.startDReg_succ]
  rw [htime] at hu
  exact hstart.once (u + 1) hu

/-- With a fair host and consumer the transfer finishes. -/
theorem started_finishes (hc : c.Wide512) (hlist : ListOk mem address n) (hquiet : s.Quiet)
    (hrise : s.reg.descRdReqSglistStartDReg = false) (hstart : ListStartsOnce i address n)
    (hlegal : ∀ t, ((SgRdSystem.fresh s).run i t).Legal mem (i t))
    (hfair : (SgRdSystem.fresh s).Fair i) :
    ∃ t₁, ∀ t, t₁ ≤ t → Finished mem address n ((SgRdSystem.fresh s).run i t) := by
  obtain ⟨-, hload⟩ := opening_run hc hquiet hrise hstart
  have hrecv : Receiving mem address n ((SgRdSystem.fresh s).run i 3) [] .start := hload.step hc hlist
  obtain ⟨u, hu, hwait⟩ := receiving_leadsTo hc hlist hlegal hfair 3 ⟨_, _, hrecv⟩
  obtain ⟨v, hv, hchoose⟩ := waiting_leadsTo hc hlist hfair u hwait
  obtain ⟨t₁, ht₁, hfin⟩ := choosing_leadsTo hc hlist hlegal hfair [] (sgList mem address n) v hchoose
  refine ⟨t₁, fun t ht => ?_⟩
  induction ht with
  | refl => exact hfin
  | @step t ht ih =>
    apply ih.step hc hlist
    intro hs
    obtain ⟨d, rfl⟩ : ∃ d, t = d + 1 := ⟨t - 1, by have : t₁ ≤ t := ht; omega⟩
    rw [SgRdSystem.startDReg_succ]
    exact hstart.once d hs

end Started

/-- A list of at most 512 entries, each padding or a page-aligned segment, on a legal host whose
completions come in any order. At any time the engine has been launched for the list and the
first segments, and the accepted and the offered stream beats are the first beats of the
segments. With a fair host and consumer every segment has been launched once and streamed with
one `tlast`, and the read side is idle with an empty list FIFO. -/
theorem h2c_sg_transfer (hc : c.Wide512) (mem : HostMem) (address n : ℕ) (s : SgRdState c)
    (i : ℕ → SgRdInput c) (hlist : ListOk mem address n) (hquiet : s.Quiet)
    (hrise : s.reg.descRdReqSglistStartDReg = false) (hstart : ListStartsOnce i address n)
    (hlegal : ∀ t, ((SgRdSystem.fresh s).run i t).Legal mem (i t)) :
    (∀ t, ((SgRdSystem.fresh s).run i t).launches <+:
        descriptors address n (sgList mem address n) ∧
      Begins mem (sgList mem address n) (((SgRdSystem.fresh s).run i t).accepted ++
        ((SgRdSystem.fresh s).run i t).offered)) ∧
    ((SgRdSystem.fresh s).Fair i → ∃ t₁, ∀ t, t₁ ≤ t →
      ((SgRdSystem.fresh s).run i t).launches = descriptors address n (sgList mem address n) ∧
      Streams mem (sgList mem address n) ((SgRdSystem.fresh s).run i t).accepted ∧
      ((SgRdSystem.fresh s).run i t).accepted.countP (·.tlast) =
        (segments (sgList mem address n)).length ∧
      ((SgRdSystem.fresh s).run i t).state.Quiet) := by
  constructor
  · intro t
    match t with
    | 0 => exact hquiet.opening.shows
    | 1 => exact (opening_run hc hquiet hrise hstart).1.shows
    | t + 2 =>
      rw [Nat.add_comm]
      exact (started_phase hc hlist hquiet hrise hstart hlegal t).shows
  · intro hfair
    obtain ⟨t₁, ht₁⟩ := started_finishes hc hlist hquiet hrise hstart hlegal hfair
    refine ⟨t₁, fun t ht => ?_⟩
    obtain ⟨hlaunches, hstreams, hidle, -⟩ := (ht₁ t ht).outcome
    refine ⟨hlaunches, hstreams, hstreams.countP_tlast fun e he => ?_, hidle⟩
    simp only [segments, List.mem_filter, decide_eq_true_eq] at he
    exact (hlist.segment e he.1 he.2).2

/-! ### A host that answers at once -/

namespace SgRdSystem

/-- The inputs of a cycle in which the host answers, starts the transfer on the interrupt and
every port is ready. -/
def serve (mem : HostMem) (address n t : ℕ) (x : SgRdSystem c) : SgRdInput c where
  descRdReqSglistLength := 16 * n
  descRdReqSglistAddress := address
  descRdReqSglistStart := t == 0
  descRdReqSgdmaStart := x.irqSeen
  txRdReqTlpReady := true
  rxCplTlpValid := ((x.engine []).serve mem address n t).rxCplTlpValid
  rxCplTlpHdr := ((x.engine []).serve mem address n t).rxCplTlpHdr
  rxCplTlpData := ((x.engine []).serve mem address n t).rxCplTlpData
  mAxisTlpTready := true

def served (mem : HostMem) (address n : ℕ) (x : SgRdSystem c) : ℕ → SgRdSystem c
  | 0 => x
  | t + 1 => (x.served mem address n t).step ((x.served mem address n t).serve mem address n t)

def servedInput (mem : HostMem) (address n : ℕ) (x : SgRdSystem c) (t : ℕ) : SgRdInput c :=
  (x.served mem address n t).serve mem address n t

lemma run_servedInput (mem : HostMem) (address n : ℕ) (x : SgRdSystem c) (t : ℕ) :
    x.run (x.servedInput mem address n) t = x.served mem address n t := by
  induction t with
  | zero => rfl
  | succ t ih => rw [run, ih, served, servedInput]

lemma serve_legal (mem : HostMem) (address n : ℕ) (x : SgRdSystem c) (t : ℕ) :
    (x.run (x.servedInput mem address n) t).Legal mem (x.servedInput mem address n t) := by
  rw [run_servedInput]
  exact ⟨⟨fun _ => rfl, (RdSystem.serve_legal mem address n t _).answers⟩, id⟩

lemma servedInput_starts (mem : HostMem) (address n : ℕ) (x : SgRdSystem c) :
    ListStartsOnce (x.servedInput mem address n) address n := by
  refine ⟨rfl, rfl, rfl, fun t ht => ?_⟩
  simp [servedInput, serve] at ht

end SgRdSystem

lemma SgPhase.owed_eq_nil {x : SgRdSystem c} (h : SgPhase mem address n x) {tag : ℕ}
    (ht : 2 ^ c.pcieTagWidth ≤ tag) : x.owed tag = [] := by
  cases h with
  | loading h => exact h.engine.owed tag
  | receiving cur g h => exact h.inv.data.owed tag ht
  | waiting h => exact h.resting.engine.owed tag
  | choosing done rest h => exact h.resting.engine.owed tag
  | popping done e rest h => exact h.engine.owed tag
  | skipping done rest h => exact h.resting.engine.owed tag
  | streaming done e rest cur g h => exact h.inv.data.owed tag ht
  | finished h => exact h.resting.engine.owed tag

/-- Such a host is fair to every list. -/
theorem SgRdSystem.served_fair {s : SgRdState c} (hc : c.Wide512) (hlist : ListOk mem address n)
    (hquiet : s.Quiet) (hrise : s.reg.descRdReqSglistStartDReg = false) :
    (SgRdSystem.fresh s).Fair ((SgRdSystem.fresh s).servedInput mem address n) := by
  have hstart := SgRdSystem.servedInput_starts mem address n (SgRdSystem.fresh s)
  have hlegal := SgRdSystem.serve_legal mem address n (SgRdSystem.fresh s)
  refine ⟨fun t tag hne => ⟨t, le_rfl, ?_⟩, fun t => ⟨t, le_rfl, rfl⟩, fun t hseen => ⟨t, le_rfl, ?_⟩⟩
  · have hlt : tag < 2 ^ c.pcieTagWidth := by
      by_contra hge
      match t with
      | 0 => exact hne rfl
      | 1 => exact hne ((opening_run hc hquiet hrise hstart).1.engine.owed tag)
      | t + 2 =>
        rw [Nat.add_comm] at hne
        exact hne ((started_phase hc hlist hquiet hrise hstart hlegal t).owed_eq_nil (by omega))
    have hT : 2 ^ c.pcieTagWidth ≤ 2 ^ 8 := Nat.pow_le_pow_right (by omega) c.pcieTagWidth_le
    rw [SgRdSystem.run_servedInput] at hne
    show (((SgRdSystem.fresh s).served mem address n t).engine []).owingTag.isSome = true
    rw [RdSystem.owingTag, List.find?_isSome]
    exact ⟨tag, List.mem_range.mpr (by omega), by simpa [SgRdSystem.engine] using hne⟩
  · rw [SgRdSystem.run_servedInput] at hseen
    exact hseen

/-- A list with four segments, on an engine with 32 tags out of reset. -/
theorem h2c_sg_transfer_served :
    let c : RdConfig := ⟨6, 5, 0, 2, by decide, by decide⟩
    let x := SgRdSystem.fresh (SgRdState.reset c)
    ∃ t₁, ∀ t, t₁ ≤ t →
      (x.run (x.servedInput sampleList 4096 5) t).launches = [(4096, 80), (8192, 100), (12288, 600), (16384, 64), (24576, 1)] ∧
      (x.run (x.servedInput sampleList 4096 5) t).accepted.countP (·.tlast) = 4 := by
  intro c x
  have hc : c.Wide512 := ⟨rfl, rfl⟩
  have hseg : (sgList sampleList 4096 5).all
      (fun e => e = SgEntry.zero ∨ e.address % 4096 = 0 ∧ 1 ≤ e.length) := by
    decide +kernel
  have hlist : ListOk sampleList 4096 5 := by
    refine ⟨by decide, by decide, by decide, by decide, fun e he hz => ?_⟩
    simpa [hz] using List.all_eq_true.mp hseg e he
  have hquiet := sgRdReset_quiet c
  obtain ⟨t₁, ht₁⟩ := (h2c_sg_transfer hc sampleList 4096 5 (SgRdState.reset c) (x.servedInput sampleList 4096 5)
    hlist hquiet rfl (SgRdSystem.servedInput_starts sampleList 4096 5 x)
    (SgRdSystem.serve_legal sampleList 4096 5 x)).2 (SgRdSystem.served_fair hc hlist hquiet rfl)
  have hd : descriptors 4096 5 (sgList sampleList 4096 5) = [(4096, 80), (8192, 100), (12288, 600), (16384, 64), (24576, 1)] := by decide +kernel
  have hn : (segments (sgList sampleList 4096 5)).length = 4 := by decide +kernel
  refine ⟨t₁, fun t ht => ?_⟩
  obtain ⟨hl, -, ht, -⟩ := ht₁ t ht
  exact ⟨hl.trans hd, ht.trans hn⟩

end FpgaPcie
