import FpgaPcie.Driver.Runs

/-!
# A call returns its size for its own transfer

The driver keeps the flag and the status register of a channel from one call to the next, and it
writes START without looking at either. What a call is told is about its own transfer when the
channel is at rest at its START; otherwise it may be about an earlier one.
-/

namespace FpgaPcie

namespace Sys

variable (s : Sys)

/-- The interrupt module reports a transfer only when its data has arrived. -/
def Delivered : Label → Prop
  | .dev c .done => ∀ id, (s.chan c).owed id = 0
  | .dev _ _ | .enter _ _ | .exec _ _ | .wait _ _ | .irq => True

/-- `copy_to_user` succeeds. -/
def Copies : Label → Prop
  | .exec id answer => ∀ cl n ops, s.call id = some cl → cl.pc = .run (.copyToUser n :: ops) →
      answer.isSome = true
  | .enter _ _ | .wait _ _ | .dev _ _ | .irq => True

/-- The steps after which a call is told of its own transfer. -/
structure Sound (l : Label) : Prop where
  one : s.OneAtATime l
  rest : s.StartsAtRest l
  foreign : NoForeign l
  delivered : s.Delivered l
  copies : s.Copies l

/-- A call that returns its size has all bytes of its transfer moved, and `block_c2h` has copied
them out. -/
def Completed : Prop :=
  ∀ id cl n, s.call id = some cl → cl.pc = .returned (.transferred n) →
    (s.chan cl.args.chan).moved id = cl.args.bufsize.toNat ∧
      (cl.args.chan = .c2hBl → cl.copied = true)

end Sys

/-- Nothing is owed to a call that has been told that its transfer is done. -/
structure DoneInv (x : ChanState) (id : ℕ) (cl : Call) : Prop where
  status : cl.Started → x.status = ChanState.doneStatus cl.args.chan → x.owed id = 0
  owed : cl.Succeeds → x.owed id = 0

/-- A call of `block_c2h` that succeeds copies its data out. -/
def CopiedInv (_ : ChanState) (_ : ℕ) (cl : Call) : Prop :=
  cl.args.chan = .c2hBl → cl.Succeeds → cl.copied = true ∨ ∃ n, .copyToUser n ∈ cl.pc.ops

structure DoneSysInv (s : Sys) : Prop extends SysInv s where
  /-- Writes are not answered. -/
  c2h : ∀ c, c.isH2c = false → ∀ id, (s.chan c).owed id = 0
  done : ∀ id cl, s.call id = some cl → DoneInv (s.chan cl.args.chan) id cl

section Step

variable {s s' : Sys} {l : Label} {dmaAddr : Chan → BitVec 64} {c : Chan} {x x' : ChanState}
  {id j : ℕ} {a : CallArgs} {cl cl' : Call} {e : DevEvent} {op : DrvOp} {ops : List DrvOp}

lemma ChanState.Transfer.inFlight_of_done {size : ℕ} (h : x.Transfer c id size)
    (hstatus : x.status = doneStatus c) : x.inFlight id = 0 := by
  rcases h.status (hstatus ▸ doneStatus_ne) with ⟨hone, hsg, -⟩ | ⟨-, -, -, hin⟩
  · rw [hstatus, doneStatus, if_pos hsg] at hone
    exact absurd hone (by decide)
  · exact hin

lemma ChanState.dev_owed (h : x.dev c e = some x') (hin : x.inFlight id = 0)
    (howed : x.owed id = 0) : x'.owed id = 0 := by
  cases devSpec h with
  | @countH2c i n k hc hpos hle hk =>
    have hne : id ≠ i := by
      rintro rfl
      omega
    exact (Function.update_of_ne hne _ _).trans howed
  | @arrive i n hpos hle =>
    have hne : id ≠ i := by
      rintro rfl
      omega
    exact (Function.update_of_ne hne _ _).trans howed
  | _ => exact howed

lemma ChanState.dev_owed_c2h (h : x.dev c e = some x') (hc : c.isH2c = false)
    (howed : ∀ i, x.owed i = 0) : ∀ i, x'.owed i = 0 := by
  cases devSpec h with
  | countH2c hc' => simp [hc] at hc'
  | @arrive i n hpos hle =>
    rw [howed i] at hle
    omega
  | _ => exact howed

lemma ChanState.dev_doneStatus (h : x.dev c e = some x') (hstatus : x'.status = doneStatus c) :
    x.status = doneStatus c ∨ e = .done ∨ e = .listDone ∧ c.isSg = false := by
  cases devSpec h with
  | listDone hid =>
    rcases latch_status (hstatus ▸ doneStatus_ne) with ⟨-, heq⟩ | ⟨-, heq⟩
    · exact Or.inl (heq.symm.trans hstatus)
    · refine Or.inr (Or.inr ⟨rfl, ?_⟩)
      rw [heq, doneStatus] at hstatus
      by_contra hsg
      rw [Bool.not_eq_false] at hsg
      rw [if_pos hsg] at hstatus
      exact absurd hstatus (by decide)
  | done => exact Or.inr (Or.inl rfl)
  | _ => exact Or.inl hstatus

theorem DoneInv.dev (h : DoneInv x id cl) (hinv : CallInv x id cl) (he : e.isForeign = false)
    (hdelivered : e = .done → x.owed id = 0) (hdev : x.dev cl.args.chan e = some x') :
    DoneInv x' id cl where
  status hs hstatus := by
    have htransfer := hinv.transfer hs
    have htransfer' := htransfer.dev he hdev
    rcases ChanState.dev_doneStatus hdev hstatus with hdone | rfl | ⟨rfl, hsg⟩
    · exact ChanState.dev_owed hdev (htransfer.inFlight_of_done hdone) (h.status hs hdone)
    · have hin := htransfer'.inFlight_of_done hstatus
      cases ChanState.devSpec hdev
      exact hdelivered rfl
    · cases ChanState.devSpec hdev with
      | listDone hid =>
        have hwaits := htransfer.waits (by rw [hid]; rfl)
        simp [hsg] at hwaits
  owed hs := ChanState.dev_owed hdev (hinv.through hs).inFlight (h.owed hs)

lemma DoneInv.exec (d : BitVec 64) (answer : Option ℕ) (h : DoneInv x id cl)
    (hinv : CallInv x id cl) (hpc : cl.pc = .run (op :: ops))
    (hrest : op = .writeReg .start 1 → x.AtRest) :
    DoneInv (x.exec cl.args.chan id cl.args op answer) id (cl.exec d op answer ops) := by
  have hops : cl.pc.ops = op :: ops := by rw [hpc]; rfl
  have hok : OpsOk cl.args (op :: ops) := hops ▸ hinv.ops
  refine ⟨fun hs hdone => ?_, fun hs => ?_⟩
  · rw [ChanState.exec_owed]
    have hstatus : x.status = ChanState.doneStatus cl.args.chan := by
      rcases ChanState.exec_status (x := x) (c := cl.args.chan) (a := cl.args) with heq | h0
      · exact heq.symm.trans hdone
      · exact absurd (h0.symm.trans hdone) ChanState.doneStatus_ne.symm
    by_cases hop : op = .writeReg .start 1
    · exact (hrest hop).owed id
    · exact h.status (hinv.started_of_exec d answer hpc hop hs) hstatus
  · rw [ChanState.exec_owed]
    exact h.owed (Call.succeeds_of_exec d answer hok hpc hs)

lemma CopiedInv.exec (d : BitVec 64) (answer : Option ℕ) (h : CopiedInv x id cl)
    (hok : OpsOk cl.args cl.pc.ops) (hpc : cl.pc = .run (op :: ops))
    (hcopies : ∀ n, op = .copyToUser n → answer.isSome = true) :
    CopiedInv x' id (cl.exec d op answer ops) := by
  have hops : cl.pc.ops = op :: ops := by rw [hpc]; rfl
  rw [hops] at hok
  intro hc hs
  rcases h hc (Call.succeeds_of_exec d answer hok hpc hs) with hcl | ⟨n, hn⟩
  · exact Or.inl (by simp [Call.exec, hcl])
  rw [hops] at hn
  rcases List.mem_cons.mp hn with rfl | hm
  · exact Or.inl (by simp [Call.exec, DrvOp.copies, hcopies n rfl])
  · right
    clear hn
    cases op with
    | ret r => simp [hok.ret r ops List.suffix_rfl] at hm
    | getSgList => simp [(hok.list ops List.suffix_rfl).1] at hm
    | copyFromUser m =>
      cases answer with
      | none =>
        obtain ⟨k, hk⟩ := hs
        simp [Call.exec, CallPc.after, CallPc.ofOps, CallPc.ops] at hk
      | some k => exact ⟨n, by simpa [Call.exec, CallPc.after] using hm⟩
    | _ => exact ⟨n, by simpa [Call.exec, CallPc.after] using hm⟩

lemma CallInv.read_of_succeeds {d : BitVec 64} {pc : CallPc} {e : WaitEvent} {ce : CallEvent}
    (hinv : CallInv x id cl) (hevent : e.event x = some ce)
    (hpc : cl.pc.step d cl.args ce = some pc) (hs : ({ cl with pc := pc } : Call).Succeeds) :
    x.status = ChanState.doneStatus cl.args.chan ∧ pc = .ofOps (cl.args.onStatus x.status) ∧
      ∃ n, .ret (.transferred n) ∈ pc.ops := by
  obtain ⟨hops, hactive, hcases⟩ := WaitEvent.spec hevent hpc
  have hstarted : cl.Started := ⟨hactive, by simp [Call.NotStarted, hops], by simp [hops]⟩
  obtain ⟨n, hn⟩ := hs
  rcases hcases with ⟨hops', hactive'⟩ | ⟨err, rfl, -⟩ | ⟨rfl, -⟩
  · rcases hn with hn | hn
    · simp [hops'] at hn
    · rw [show pc = _ from hn] at hactive'
      cases hactive'
  · unfold CallArgs.exit at hn
    split_ifs at hn <;> simp [CallPc.ofOps, CallPc.ops] at hn
  · have hmem : .ret (.transferred n) ∈ cl.args.onStatus x.status := by
      rcases hn with hn | hn
      · simpa using hn
      · cases hl : cl.args.onStatus x.status <;> simp [hl, CallPc.ofOps] at hn
    obtain ⟨hne, hdone⟩ := CallArgs.onStatus_transferred hmem
    refine ⟨?_, rfl, n, by simpa using hmem⟩
    rcases (hinv.transfer hstarted).status hne with ⟨hone, hsg, -⟩ | ⟨heq, -⟩
    · rw [hdone hsg] at hone
      exact absurd hone (by decide)
    · exact heq

lemma DoneInv.wait {d : BitVec 64} {pc : CallPc} {e : WaitEvent} {ce : CallEvent}
    (h : DoneInv x id cl) (hinv : CallInv x id cl) (hevent : e.event x = some ce)
    (hpc : cl.pc.step d cl.args ce = some pc) : DoneInv x id { cl with pc := pc } := by
  obtain ⟨hops, hactive, -⟩ := WaitEvent.spec hevent hpc
  have hstarted : cl.Started := ⟨hactive, by simp [Call.NotStarted, hops], by simp [hops]⟩
  exact ⟨fun _ => h.status hstarted,
    fun hs => h.status hstarted (hinv.read_of_succeeds hevent hpc hs).1⟩

lemma CopiedInv.wait {d : BitVec 64} {pc : CallPc} {e : WaitEvent} {ce : CallEvent}
    (hinv : CallInv x id cl) (hevent : e.event x = some ce)
    (hpc : cl.pc.step d cl.args ce = some pc) : CopiedInv x id { cl with pc := pc } := by
  intro hc hs
  obtain ⟨-, rfl, n, hmem⟩ := hinv.read_of_succeeds hevent hpc hs
  right
  have hchan : cl.args.chan = .c2hBl := hc
  simp only [CallPc.ops_ofOps, CallArgs.onStatus, hchan] at hmem ⊢
  split_ifs at hmem ⊢ <;> simp at hmem ⊢

lemma Call.not_succeeds_enter (d : BitVec 64) :
    ¬({ args := a, pc := .ofOps (a.entry d) } : Call).Succeeds := by
  rintro ⟨n, hn⟩
  rw [show (CallPc.ofOps (a.entry d)).ops = a.entry d from CallPc.ops_ofOps _] at hn
  rcases hn with hn | hn
  · exact (a.entry_ops d).2.1 n hn
  · cases he : a.entry d <;> simp [he, CallPc.ofOps] at hn

lemma doneInv_enter (d : BitVec 64) : DoneInv x id { args := a, pc := .ofOps (a.entry d) } := by
  refine ⟨fun hs => ?_, fun hs => absurd hs (Call.not_succeeds_enter d)⟩
  have hnot := hs.started
  have herr := hs.error
  unfold Call.NotStarted at hnot
  rw [show (CallPc.ofOps (a.entry d)).ops = a.entry d from CallPc.ops_ofOps _] at hnot herr
  rcases (a.entry_ops d).2.2.1 with hm | hm | ⟨e, hm⟩
  · exact absurd (Or.inl hm) hnot
  · exact absurd (Or.inr hm) hnot
  · exact absurd hm (herr e)

theorem DoneSysInv.init : DoneSysInv Sys.init where
  toSysInv := .init
  c2h _ _ _ := rfl
  done _ _ h := by cases h

theorem DoneSysInv.step (h : DoneSysInv s) (hone : s.OneAtATime l) (hrest : s.StartsAtRest l)
    (hforeign : Sys.NoForeign l) (hdelivered : s.Delivered l)
    (hstep : s.step dmaAddr l = some s') : DoneSysInv s' := by
  have hinv' := h.toSysInv.step hone hrest hforeign hstep
  have hdone : CallStable DoneInv dmaAddr s l := {
    enter := fun id a hl hcall => doneInv_enter _
    exec := fun id answer cl op ops hl hcall hpc hd => by
      subst hl
      exact hd.exec _ _ (h.calls id cl hcall) hpc fun hop => hrest _ _ hcall (hop ▸ hpc)
    other := fun id answer cl op ops j cj hl hcall hpc hj hne hchan hd => by
      have hover := h.exclusive.over hcall hpc hj hne hchan
      refine ⟨fun hs => absurd hs.active (by simp [hover]), fun hs => ?_⟩
      rw [ChanState.exec_owed]
      exact hd.owed hs
    wait := fun id e ce cl pc hl hcall hevent hpc hd =>
      hd.wait (h.calls id cl hcall) hevent hpc
    dev := fun e x id cl hl hdev hcall hd => by
      subst hl
      refine hd.dev (h.calls id cl hcall) hforeign (fun he => ?_) hdev
      subst he
      exact hdelivered id
    flag := fun c v id cl hcall hchan hd => ⟨hd.status, hd.owed⟩ }
  refine ⟨hinv', ?_, hdone.step h.done hstep⟩
  refine Sys.chan_step hstep h.c2h (fun id answer cl op ops hl hcall hpc hc i => ?_)
    (fun c e x hl hdev hc => ChanState.dev_owed_c2h hdev hc (h.c2h c hc)) fun c v hc => hc
  rw [ChanState.exec_owed]
  exact h.c2h _ hc i

lemma DoneSysInv.moved {n : BitVec 32} (h : DoneSysInv s) (hcall : s.call id = some cl)
    (hpc : cl.pc = .returned (.transferred n)) :
    (s.chan cl.args.chan).moved id = cl.args.bufsize.toNat := by
  have hs : cl.Succeeds := ⟨n, Or.inr hpc⟩
  have hsum := ((h.calls id cl hcall).through hs).sum
  rw [(h.done id cl hcall).owed hs] at hsum
  omega

theorem Sys.copiedInv_step (h : DoneSysInv s) (hcopies : s.Copies l)
    (hall : ∀ id cl, s.call id = some cl → CopiedInv (s.chan cl.args.chan) id cl)
    (hstep : s.step dmaAddr l = some s') :
    ∀ id cl, s'.call id = some cl → CopiedInv (s'.chan cl.args.chan) id cl := by
  have hstable : CallStable CopiedInv dmaAddr s l := {
    enter := fun id a hl hcall hc hs => absurd hs (Call.not_succeeds_enter _)
    exec := fun id answer cl op ops hl hcall hpc hd => by
      subst hl
      exact hd.exec _ _ (h.calls id cl hcall).ops hpc fun n hop => hcopies cl n ops hcall (hop ▸ hpc)
    other := fun id answer cl op ops j cj hl hcall hpc hj hne hchan hd => hd
    wait := fun id e ce cl pc hl hcall hevent hpc hd =>
      CopiedInv.wait (h.calls id cl hcall) hevent hpc
    dev := fun e x id cl hl hdev hcall hd => hd
    flag := fun c v id cl hcall hchan hd => hd }
  exact hstable.step hall hstep

/-- As long as each START finds its channel at rest, the H2C interrupts are neither early nor
caused by a list, and `copy_to_user` succeeds, a call returns its size only for its own transfer. -/
theorem transfer_completed (h : Reaches (Sys.step dmaAddr) Sys.Sound Sys.init s) : s.Completed := by
  have hinv : DoneSysInv s ∧ ∀ id cl, s.call id = some cl →
      CopiedInv (s.chan cl.args.chan) id cl :=
    h.invariant (P := fun s => DoneSysInv s ∧ ∀ id cl, s.call id = some cl →
        CopiedInv (s.chan cl.args.chan) id cl) ⟨.init, fun id cl h => by cases h⟩
      fun s l s' hs hl hstep =>
        ⟨hs.1.step hl.one hl.rest hl.foreign hl.delivered hstep,
          Sys.copiedInv_step hs.1 hl.copies hs.2 hstep⟩
  intro id cl n hcall hpc
  refine ⟨hinv.1.moved hcall hpc, fun hc => ?_⟩
  refine (hinv.2 id cl hcall hc ⟨n, Or.inr hpc⟩).resolve_right ?_
  rintro ⟨m, hm⟩
  simp [hpc, CallPc.ops] at hm

end Step

/-- One complete call of `block_c2h`. -/
theorem block_c2h_completed : ∃ s, Reaches (Sys.step fun _ => 0) Sys.Sound Sys.init s ∧
    s.Completed ∧ ∃ cl, s.call 0 = some cl ∧ cl.pc = .returned (.transferred 64) := by
  let check : Sys → Label → Bool := fun s l =>
    match l with
    | .dev c .done => (List.range 1).all fun i => decide ((s.chan c).owed i = 0)
    | .exec _ answer => answer.isSome
    | _ => true
  have hrun : (runSteps (fun s l => if (s.admits 1 l && s.startsAtRest 1 l && check s l) = true
      then s.step (fun _ => 0) l else none) Sys.init
        (blockC2hEntry 0 ++ blockC2hTransfer 0 ++ blockC2hReturn 0)).any (fun s =>
          (s.call 0).any fun cl => decide (cl.pc = .returned (.transferred 64))) = true := by
    decide +kernel
  obtain ⟨s, hs, hcall⟩ := (Option.any_eq_true _ _).mp hrun
  obtain ⟨cl, hcl, hpc⟩ := (Option.any_eq_true _ _).mp hcall
  have hreach : Reaches (Sys.step fun _ => 0) Sys.Sound Sys.init s := by
    refine (Sys.reaches_of_startsAtRest (P := fun s l => s.Delivered l ∧ s.Copies l) ?_ hs).mono
      fun s l hl => ⟨hl.1, hl.2.1, hl.2.2.1, hl.2.2.2.1, hl.2.2.2.2⟩
    intro s l hinv hnone hcheck
    cases l with
    | dev c e =>
      refine ⟨?_, trivial⟩
      cases e with
      | done =>
        intro i
        by_cases hi : i < 1
        · simpa using (List.all_eq_true.mp hcheck) i (List.mem_range.mpr hi)
        · exact (hinv.unborn i (hnone i (not_lt.mp hi)) c).owed
      | _ => trivial
    | exec id answer => exact ⟨trivial, fun _ _ _ _ _ => hcheck⟩
    | _ => exact ⟨trivial, trivial⟩
  exact ⟨s, hreach, transfer_completed hreach, cl, hcl, by simpa using hpc⟩

/-- A call whose wait has timed out leaves its transfer running, and the next one is told of it. -/
theorem completed_too_early :
    ∃ s, Reaches (Sys.step fun _ => 0) Sys.OneAtATime Sys.init s ∧ ¬s.Completed := by
  have hrun : (runSteps (fun s l => if (s.admits 2 l && true) = true then s.step (fun _ => 0) l
      else none) Sys.init (blockC2hEntry 0 ++ [.wait 0 .timeout, .exec 0 none, .exec 0 none] ++
        blockC2hTransfer 0 ++ blockC2hEntry 1 ++ blockC2hReturn 1)).any (fun s =>
          (s.call 1).any fun cl => decide (cl.pc = .returned (.transferred 64)) &&
            decide ((s.chan cl.args.chan).moved 1 ≠ cl.args.bufsize.toNat)) = true := by
    decide +kernel
  obtain ⟨s, hs, hcall⟩ := (Option.any_eq_true _ _).mp hrun
  obtain ⟨cl, hcl, hpc⟩ := (Option.any_eq_true _ _).mp hcall
  simp only [Bool.and_eq_true, decide_eq_true_eq] at hpc
  exact ⟨s, (Sys.reaches_of_admits (fun _ _ _ => trivial) hs).mono fun _ _ hl => hl.1, fun h => hpc.2 (h 1 cl 64 hcl hpc.1).1⟩

end FpgaPcie
