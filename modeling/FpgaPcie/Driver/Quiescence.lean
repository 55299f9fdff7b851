import FpgaPcie.Driver.Runs

/-!
# The scatter list is released behind the engine

`free_sg_buf` unmaps and unpins the pages of a call. The exits of a timeout and of a signal run it
without asking the device, which goes on with the list.
-/

namespace FpgaPcie

namespace ChanState

variable {c : Chan} {x x' : ChanState} {id j : ℕ} {a : CallArgs} {e : DevEvent} {op : DrvOp}

/-- The engine has no entry of the list of call `id` left, and no write of it is under way. -/
structure Quiet (c : Chan) (x : ChanState) (id : ℕ) : Prop where
  engine : ¬x.engine.Holds id
  inFlight : c.isH2c = false → x.inFlight id = 0

theorem Quiet.dev (h : Quiet c x id) (hdev : x.dev c e = some x') : Quiet c x' id := by
  obtain ⟨heng, hin⟩ := h
  cases devSpec hdev with
  | listDone hid => exact ⟨by rwa [hid] at heng, hin⟩
  | issue hid hpos hle =>
    rw [hid] at heng
    have hne : id ≠ _ := fun heq => heng ⟨heq.symm, by omega⟩
    exact ⟨fun hholds => heng ⟨hholds.1, by omega⟩,
      fun hc => (Function.update_of_ne hne _ _).trans (hin hc)⟩
  | countH2c hc hpos hle hk => exact ⟨heng, fun hc' => absurd hc (by simp [hc'])⟩
  | @countC2h i n k hc hpos hle hk =>
    refine ⟨heng, fun hc' => ?_⟩
    have hne : id ≠ i := by
      rintro rfl
      have h0 := hin hc'
      omega
    exact (Function.update_of_ne hne _ _).trans (hin hc')
  | finish hid => exact ⟨fun hholds => hholds.elim, hin⟩
  | _ => exact ⟨heng, hin⟩

lemma Quiet.exec {answer : Option ℕ} (h : Quiet c x id) (hsg : c.isSg = true)
    (hstart : ∀ v, op = .writeReg .start v → j = id → v = 2) :
    Quiet c (x.exec c j a op answer) id := by
  obtain ⟨heng, hin⟩ := h
  cases op with
  | writeReg r v =>
    cases r with
    | start =>
      have hfetch : j = id → v &&& 1 = 0 := by
        intro hj
        rw [hstart v rfl hj]
        decide
      simp only [ChanState.exec, writeReg, writeStart, hsg, if_true]
      by_cases h1 : v &&& 1 ≠ 0 ∧ x.engine = .idle
      · have hj : j ≠ id := fun hj => h1.1 (hfetch hj)
        rw [if_pos h1]
        split_ifs
        · exact ⟨fun hholds => hj hholds.1, hin⟩
        · exact ⟨hj, hin⟩
      · rw [if_neg h1]
        split_ifs
        · refine ⟨?_, hin⟩
          cases he : x.engine with
          | idle => exact fun hholds => hholds.elim
          | fetching i => exact fun hholds => heng (he ▸ hholds.1)
          | listed i n => exact fun hholds => heng (he ▸ hholds.1)
          | moving i n => exact fun hholds => heng (he ▸ hholds)
        · exact ⟨heng, hin⟩
    | _ => exact ⟨heng, hin⟩
  | getSgList => cases answer <;> exact ⟨heng, hin⟩
  | _ => exact ⟨heng, hin⟩

lemma Transfer.quiet {size : ℕ} (h : Transfer c x id size) (hdone : x.status = doneStatus c)
    (hne : doneStatus c ≠ 1) : Quiet c x id := by
  have hstatus : x.status ≠ 0 := hdone ▸ doneStatus_ne
  rcases h.status hstatus with ⟨hone, -⟩ | ⟨-, hwaits, hleft, hin⟩
  · exact absurd (hdone.symm.trans hone) hne
  · exact ⟨(h.through hwaits hleft hin).engine, fun _ => hin⟩

end ChanState

namespace Sys

variable (s : Sys)

/-- A call of a scatter-gather channel gives up its wait only behind the engine. -/
def GivesUpQuiet : Label → Prop
  | .wait id .timeout | .wait id .signal => ∀ cl, s.call id = some cl →
      cl.args.chan.isSg = true → (s.chan cl.args.chan).Quiet cl.args.chan id
  | .wait _ .wake | .wait _ .testFlag | .wait _ .readStatus | .enter _ _ | .exec _ _ | .dev _ _
  | .irq => True

/-- The steps after which a list is released behind the engine. -/
structure Patient (l : Label) : Prop where
  one : s.OneAtATime l
  rest : s.StartsAtRest l
  foreign : NoForeign l
  givesUp : s.GivesUpQuiet l

/-- The device is through with each list that has been released. -/
def Quiesced : Prop :=
  ∀ id cl, s.call id = some cl → cl.freed = true →
    (s.chan cl.args.chan).Quiet cl.args.chan id

end Sys

/-- The device is through with a list that is released, or is going to be. -/
def QuietInv (x : ChanState) (id : ℕ) (cl : Call) : Prop :=
  cl.freed = true ∨ .freeSgBuf ∈ cl.pc.ops →
    cl.args.chan.isSg = true ∧ ¬cl.NotStarted ∧ x.Quiet cl.args.chan id

section Step

variable {s s' : Sys} {l : Label} {dmaAddr : Chan → BitVec 64} {x x' : ChanState} {id j : ℕ}
  {a : CallArgs} {cl : Call} {op : DrvOp} {ops : List DrvOp}

/-- A call that releases its list in its next operations starts nothing any more. -/
lemma Call.freed_of_exec (d : BitVec 64) (answer : Option ℕ) (hok : OpsOk cl.args (op :: ops))
    (hpc : cl.pc = .run (op :: ops))
    (h : (cl.exec d op answer ops).freed = true ∨ .freeSgBuf ∈ (cl.exec d op answer ops).pc.ops) :
    cl.freed = true ∨ .freeSgBuf ∈ cl.pc.ops := by
  have hops : cl.pc.ops = op :: ops := by rw [hpc]; rfl
  rw [hops]
  rcases h with h | h
  · simp only [Call.exec, Bool.or_eq_true, decide_eq_true_eq] at h
    exact h.imp_right fun hop => List.mem_cons.mpr (Or.inl hop.symm)
  · right
    cases op with
    | getSgList =>
      obtain ⟨rfl, -⟩ := hok.list ops List.suffix_rfl
      cases answer with
      | none => simp [Call.exec, CallPc.after, CallPc.ops] at h
      | some n =>
        simp [Call.exec, CallPc.after, (cl.args.freeSgBuf_notMem d n).2] at h
    | copyFromUser n =>
      cases answer with
      | none => simp [Call.exec, CallPc.after] at h
      | some m => exact List.mem_cons_of_mem _ (by simpa [Call.exec, CallPc.after] using h)
    | ret r => simp [Call.exec, CallPc.after, CallPc.ops] at h
    | _ => exact List.mem_cons_of_mem _ (by simpa [Call.exec, CallPc.after] using h)

theorem QuietInv.exec (d : BitVec 64) (answer : Option ℕ) (h : QuietInv x id cl)
    (hok : OpsOk cl.args cl.pc.ops) (hpc : cl.pc = .run (op :: ops)) :
    QuietInv (x.exec cl.args.chan id cl.args op answer) id (cl.exec d op answer ops) := by
  have hops : cl.pc.ops = op :: ops := by rw [hpc]; rfl
  rw [hops] at hok
  intro hfree
  obtain ⟨hsg, hnot, hquiet⟩ := h (Call.freed_of_exec d answer hok hpc hfree)
  refine ⟨hsg, fun hn => hnot (Call.notStarted_of_exec d answer hpc hn), ?_⟩
  refine hquiet.exec hsg fun v hop _ => ?_
  subst hop
  rcases hok.start v ops List.suffix_rfl with rfl | ⟨rfl, -⟩
  · exact absurd (Or.inl (hops ▸ List.mem_cons_self)) hnot
  · rfl

theorem QuietInv.wait {d : BitVec 64} {pc : CallPc} {e : WaitEvent} {ce : CallEvent}
    (h : QuietInv x id cl) (hinv : CallInv x id cl) (hevent : e.event x = some ce)
    (hpc : cl.pc.step d cl.args ce = some pc)
    (hgives : e = .timeout ∨ e = .signal → cl.args.chan.isSg = true →
      x.Quiet cl.args.chan id) : QuietInv x id { cl with pc := pc } := by
  obtain ⟨hops, hactive, hcases⟩ := WaitEvent.spec hevent hpc
  intro hfree
  have hnot : ¬({ cl with pc := pc } : Call).NotStarted := by
    intro hn
    unfold Call.NotStarted at hn
    rcases hcases with ⟨hops', -⟩ | ⟨err, rfl, -⟩ | ⟨rfl, -⟩
    · simp [hops'] at hn
    · simp only [CallPc.ops_ofOps, CallArgs.exit] at hn
      split_ifs at hn <;> simp at hn
    · rw [CallPc.ops_ofOps] at hn
      exact hn.elim (cl.args.onStatus_notStarted _).1 (cl.args.onStatus_notStarted _).2
  by_cases hfreed : cl.freed = true
  · obtain ⟨hsg, -, hquiet⟩ := h (Or.inl hfreed)
    exact ⟨hsg, hnot, hquiet⟩
  · have hmem : .freeSgBuf ∈ pc.ops := hfree.resolve_left hfreed
    rcases hcases with ⟨hops', -⟩ | ⟨err, rfl, hend⟩ | ⟨rfl, -⟩
    · simp [hops'] at hmem
    · rw [CallPc.ops_ofOps] at hmem
      have hsg := CallArgs.exit_freeSgBuf hmem
      exact ⟨hsg, hnot, hgives hend hsg⟩
    · rw [CallPc.ops_ofOps] at hmem
      obtain ⟨hsg, hstatus⟩ := CallArgs.onStatus_freeSgBuf hmem
      have hstarted : cl.Started := ⟨hactive, by simp [Call.NotStarted, hops], by simp [hops]⟩
      have hdone : ChanState.doneStatus cl.args.chan = 2 := if_pos hsg
      refine ⟨hsg, hnot, (hinv.transfer hstarted).quiet (hstatus.trans hdone.symm) ?_⟩
      rw [hdone]
      decide

theorem Sys.quietInv_step (hinv : SysInv s) (hpatient : s.Patient l)
    (hall : ∀ id cl, s.call id = some cl → QuietInv (s.chan cl.args.chan) id cl)
    (hstep : s.step dmaAddr l = some s') :
    ∀ id cl, s'.call id = some cl → QuietInv (s'.chan cl.args.chan) id cl := by
  have hstable : CallStable QuietInv dmaAddr s l := {
    enter := fun id a hl hcall hfree => by
      simp [(a.freeSgBuf_notMem (dmaAddr a.chan) 0).1] at hfree
    exec := fun id answer cl op ops hl hcall hpc h => h.exec _ _ (hinv.calls id cl hcall).ops hpc
    other := fun id answer cl op ops j cj hl hcall hpc hj hne hchan h hfree => by
      obtain ⟨hsg, hnot, hquiet⟩ := h hfree
      rw [hchan] at hsg hquiet ⊢
      exact ⟨hsg, hnot, hquiet.exec hsg fun v _ heq => absurd heq.symm hne⟩
    wait := fun id e ce cl pc hl hcall hevent hpc h => by
      refine h.wait (hinv.calls id cl hcall) hevent hpc fun hend hsg => ?_
      have hgives := hpatient.givesUp
      rw [hl] at hgives
      rcases hend with rfl | rfl
      · exact hgives cl hcall hsg
      · exact hgives cl hcall hsg
    dev := fun e x id cl hl hdev hcall h hfree => by
      obtain ⟨hsg, hnot, hquiet⟩ := h hfree
      exact ⟨hsg, hnot, hquiet.dev hdev⟩
    flag := fun c v id cl hcall hchan h hfree => by
      obtain ⟨hsg, hnot, hquiet⟩ := h hfree
      exact ⟨hsg, hnot, hquiet.engine, hquiet.inFlight⟩ }
  exact hstable.step hall hstep

/-- As long as each START finds its channel at rest, no completion of another list is counted, and
a call gives up only behind the engine, a list is released behind the engine. -/
theorem released_quiet (h : Reaches (Sys.step dmaAddr) Sys.Patient Sys.init s) : s.Quiesced := by
  have hinv : SysInv s ∧ ∀ id cl, s.call id = some cl → QuietInv (s.chan cl.args.chan) id cl :=
    h.invariant (P := fun s => SysInv s ∧
        ∀ id cl, s.call id = some cl → QuietInv (s.chan cl.args.chan) id cl)
      ⟨.init, fun id cl h => by cases h⟩ fun s l s' hs hl hstep =>
        ⟨hs.1.step hl.one hl.rest hl.foreign hstep, Sys.quietInv_step hs.1 hl hs.2 hstep⟩
  intro id cl hcall hfreed
  exact (hinv.2 id cl hcall (Or.inl hfreed)).2.2

end Step

/-- `sg_c2h` for 64 bytes, up to its wait. -/
def sgC2hEntry : List Label :=
  .enter 0 ⟨.c2hSg, 64, 0⟩ :: List.replicate 8 (.exec 0 (some 1))

/-- A call of `sg_c2h` releases its list behind its transfer. -/
theorem sg_c2h_released : ∃ s, Reaches (Sys.step fun _ => 0) Sys.Patient Sys.init s ∧
    s.Quiesced ∧ ∃ cl, s.call 0 = some cl ∧ cl.pc = .returned (.transferred 64) ∧
      cl.freed = true := by
  let wakes : List Label :=
    List.replicate 9 .irq ++ [.wait 0 .wake, .wait 0 .testFlag, .wait 0 .readStatus]
  have hrun : (runSteps (fun s l => if (s.admits 1 l && s.startsAtRest 1 l && l.waits) = true
      then s.step (fun _ => 0) l else none) Sys.init
        (sgC2hEntry ++ .dev .c2hSg .listDone :: wakes ++ List.replicate 3 (.exec 0 none) ++
          [.dev .c2hSg (.issue 64), .dev .c2hSg (.count 0 64 64), .dev .c2hSg .done,
            .dev .c2hSg .finish] ++ wakes ++ List.replicate 4 (.exec 0 none))).any (fun s =>
          (s.call 0).any fun cl =>
            decide (cl.pc = .returned (.transferred 64) ∧ cl.freed = true)) = true := by
    decide +kernel
  obtain ⟨s, hs, hcall⟩ := (Option.any_eq_true _ _).mp hrun
  obtain ⟨cl, hcl, hpc⟩ := (Option.any_eq_true _ _).mp hcall
  have hreach : Reaches (Sys.step fun _ => 0) Sys.Patient Sys.init s := by
    refine (Sys.reaches_of_startsAtRest (P := Sys.GivesUpQuiet) ?_ hs).mono
      fun s l hl => ⟨hl.1, hl.2.1, hl.2.2.1, hl.2.2.2⟩
    intro s l hinv hnone hcheck
    cases l with
    | wait id e => cases e <;> trivial
    | _ => trivial
  exact ⟨s, hreach, released_quiet hreach, cl, hcl, of_decide_eq_true hpc⟩

/-- A call that times out while the FPGA reads its list releases the list. -/
theorem released_too_early :
    ∃ s, Reaches (Sys.step fun _ => 0) Sys.OneAtATime Sys.init s ∧ ¬s.Quiesced := by
  have hrun : (runSteps (fun s l => if (s.admits 1 l && true) = true then s.step (fun _ => 0) l
      else none) Sys.init (sgC2hEntry ++ [.wait 0 .timeout, .exec 0 none, .exec 0 none])).any (fun s =>
        (s.call 0).any fun cl => cl.freed &&
          decide (cl.args.chan = .c2hSg ∧ (s.chan .c2hSg).engine = .fetching 0)) = true := by
    decide +kernel
  obtain ⟨s, hs, hcall⟩ := (Option.any_eq_true _ _).mp hrun
  obtain ⟨cl, hcl, hpc⟩ := (Option.any_eq_true _ _).mp hcall
  simp only [Bool.and_eq_true, decide_eq_true_eq] at hpc
  obtain ⟨hfreed, hchan, hengine⟩ := hpc
  refine ⟨s, (Sys.reaches_of_admits (fun _ _ _ => trivial) hs).mono fun _ _ hl => hl.1, fun h => (h 0 cl hcl hfreed).engine ?_⟩
  rw [hchan, hengine]
  rfl

end FpgaPcie
