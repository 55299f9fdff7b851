import FpgaPcie.Driver.Runs

/-!
# The wait loops and their timeout

A round of a wait loop begins and ends at `wait_event_interruptible_timeout`. It passes the wait at once
while the flag is set, and reads the status register behind it. A value that the loop does not handle leaves
the flag as it is: the next round passes the wait at once again, and the timeout never runs.
-/

namespace FpgaPcie

/-- The loop has a branch for the value. -/
def CallArgs.handles (a : CallArgs) (v : BitVec 32) : Bool := !(a.onStatus v).isEmpty

/-- Behind it the round clears the flag or the call returns. -/
def DrvOp.settles : DrvOp → Bool
  | .clearFlag | .ret _ => true
  | .copyFromUser _ | .copyToUser _ | .getSgList | .writeReg _ _ | .freeSgBuf => false

namespace Sys

variable (s : Sys)

/-- Call `id` is at its wait. -/
def atWait (id : ℕ) : Bool := (s.call id).any fun cl => decide (cl.pc = .waiting)

/-- The flag of the channel of call `id` is set. -/
def flagSet (id : ℕ) : Bool := (s.call id).any fun cl => decide ((s.chan cl.args.chan).flag ≠ 0)

/-- The step clears the flag for call `id`. -/
def clears (id : ℕ) : Label → Bool
  | .exec i _ => decide (i = id) && (s.call id).any fun cl => cl.pc.ops.head? == some .clearFlag
  | .enter _ _ | .wait _ _ | .dev _ _ | .irq => false

end Sys

/-- The call that a step belongs to. -/
def Label.call : Label → Option ℕ
  | .exec id _ | .wait id _ => some id
  | .enter _ _ | .dev _ _ | .irq => none

/-- The system with the rounds of the calls. `idle id` tells that the flag of call `id` has been set all the time
that the call has been at the wait in this round, and that the round has not cleared it: so far the call has
neither slept nor got on. `busy` tells that such a round has come back to the wait. -/
structure Loops where
  sys : Sys
  idle : ℕ → Bool
  busy : Bool

namespace Loops

def init : Loops := ⟨.init, fun _ => false, false⟩

/-- The round of call `id` behind a step that leads to `s'`. -/
def idleNext (x : Loops) (l : Label) (s' : Sys) (id : ℕ) : Bool :=
  if s'.atWait id then s'.flagSet id && (!x.sys.atWait id || x.idle id)
  else x.idle id && !x.sys.clears id l

/-- An idle round of the call comes back to the wait. -/
def comesBack (x : Loops) (l : Label) (s' : Sys) : Bool :=
  l.call.any fun id => s'.atWait id && !x.sys.atWait id && (x.idle id && !x.sys.clears id l)

def step (dmaAddr : Chan → BitVec 64) (x : Loops) (l : Label) : Option Loops :=
  (x.sys.step dmaAddr l).map fun s' => ⟨s', x.idleNext l s', x.busy || x.comesBack l s'⟩

/-- A round that has not slept finds its flag still set, and in the status register a value that its loop
handles. -/
def Handled (x : Loops) : Label → Prop
  | .wait id .testFlag => x.idle id = true → x.sys.flagSet id = true
  | .wait id .readStatus => x.idle id = true → ∀ cl, x.sys.call id = some cl →
      cl.args.handles (x.sys.chan cl.args.chan).status = true
  | _ => True

variable {dmaAddr : Chan → BitVec 64} {x x' : Loops} {l : Label}

/-- The straight line of an idle round settles it, and a call without a round is not idle. -/
structure Inv (x : Loops) : Prop where
  born : ∀ id, x.idle id = true → ∃ cl, x.sys.call id = some cl
  settles : ∀ id cl, x.sys.call id = some cl → x.idle id = true → ∀ ops, cl.pc = .run ops →
    ops.any DrvOp.settles = true

end Loops

namespace CallArgs

variable (a : CallArgs)

/-- A branch of the loop clears the flag. -/
lemma onStatus_settles {a : CallArgs} {v : BitVec 32} (h : a.onStatus v ≠ []) :
    (a.onStatus v).any DrvOp.settles = true := by
  unfold onStatus at h ⊢
  cases hc : a.chan <;> simp only [hc] at h ⊢ <;> split_ifs at h ⊢ <;> first | rfl | exact absurd rfl h

lemma exit_settles (e : ℤ) : (a.exit e).any DrvOp.settles = true := by
  unfold exit
  split_ifs <;> rfl

end CallArgs

/-- What a straight line that settles its round leaves when its first operation does not. -/
lemma CallPc.after_settles {dmaAddr : BitVec 64} {a : CallArgs} {op : DrvOp} {ops : List DrvOp}
    {answer : Option ℕ} (h : (op :: ops).any DrvOp.settles = true) (hop : op ≠ .clearFlag) :
    CallPc.after dmaAddr a op answer ops ≠ .waiting ∧
      ∀ ops', CallPc.after dmaAddr a op answer ops = .run ops' → ops'.any DrvOp.settles = true := by
  have hofOps : ∀ ops : List DrvOp, ops.any DrvOp.settles = true →
      CallPc.ofOps ops ≠ .waiting ∧ ∀ ops', CallPc.ofOps ops = .run ops' → ops'.any DrvOp.settles = true := by
    intro ops hops
    cases ops with
    | nil => cases hops
    | cons op ops => exact ⟨(by intro h; cases h), fun ops' h => by cases h; exact hops⟩
  rw [List.any_cons, Bool.or_eq_true] at h
  cases op with
  | ret r => exact ⟨(by intro h; cases h), fun ops' h => by cases h⟩
  | clearFlag => exact absurd rfl hop
  | copyFromUser n =>
    rw [CallPc.after]
    split_ifs
    · exact hofOps _ rfl
    · exact hofOps _ (h.resolve_left Bool.false_ne_true)
  | getSgList =>
    cases answer with
    | none => exact ⟨(by intro h; cases h), fun ops' h => by cases h⟩
    | some nents =>
      apply hofOps
      rw [List.any_append, h.resolve_left Bool.false_ne_true, Bool.or_true]
  | copyToUser n => exact hofOps _ (h.resolve_left Bool.false_ne_true)
  | writeReg r v => exact hofOps _ (h.resolve_left Bool.false_ne_true)
  | freeSgBuf => exact hofOps _ (h.resolve_left Bool.false_ne_true)

namespace Sys

variable {dmaAddr : Chan → BitVec 64} {s s' : Sys} {l : Label} {id : ℕ} {cl : Call}

lemma atWait_eq (h : s.call id = some cl) : s.atWait id = decide (cl.pc = .waiting) := by
  rw [atWait, h]
  rfl

lemma flagSet_eq (h : s.call id = some cl) : s.flagSet id = decide ((s.chan cl.args.chan).flag ≠ 0) := by
  rw [flagSet, h]
  rfl

lemma clears_eq {answer : Option ℕ} {op : DrvOp} {ops : List DrvOp} (h : s.call id = some cl)
    (hpc : cl.pc = .run (op :: ops)) : s.clears id (.exec id answer) = decide (op = .clearFlag) := by
  simp only [clears, decide_true, Bool.true_and, h, Option.any_some, hpc, CallPc.ops, List.head?_cons]
  rfl

/-- What a step does to a call. -/
inductive CallStep (dmaAddr : Chan → BitVec 64) (s : Sys) (id : ℕ) : Label → Call → Prop
  | same {l : Label} {cl : Call} (hcall : s.call id = some cl) : CallStep dmaAddr s id l cl
  | enter (a : CallArgs) (hcall : s.call id = none) :
      CallStep dmaAddr s id (.enter id a) { args := a, pc := .ofOps (a.entry (dmaAddr a.chan)) }
  | exec {answer : Option ℕ} {cl : Call} {op : DrvOp} {ops : List DrvOp} (hcall : s.call id = some cl)
      (hpc : cl.pc = .run (op :: ops)) :
      CallStep dmaAddr s id (.exec id answer) (cl.exec (dmaAddr cl.args.chan) op answer ops)
  | wait {e : WaitEvent} {ce : CallEvent} {cl : Call} {pc : CallPc} (hcall : s.call id = some cl)
      (hevent : e.event (s.chan cl.args.chan) = some ce)
      (hpc : cl.pc.step (dmaAddr cl.args.chan) cl.args ce = some pc) :
      CallStep dmaAddr s id (.wait id e) { cl with pc := pc }

theorem callStep (hstep : s.step dmaAddr l = some s') (hcall : s'.call id = some cl) :
    CallStep dmaAddr s id l cl := by
  cases stepSpec hstep with
  | enter hnone =>
    rcases call_setCall hcall with ⟨rfl, rfl⟩ | ⟨-, hcall⟩
    · exact .enter _ hnone
    · exact .same hcall
  | exec hid hpc =>
    rcases call_setCall hcall with ⟨rfl, rfl⟩ | ⟨-, hcall⟩
    · exact .exec hid hpc
    · exact .same hcall
  | wait hid hevent hpc =>
    rcases call_setCall hcall with ⟨rfl, rfl⟩ | ⟨-, hcall⟩
    · exact .wait hid hevent hpc
    · exact .same hcall
  | dev _ _ => exact .same hcall
  | irqEnter _ => exact .same hcall
  | irqRead _ => exact .same hcall
  | irqSet _ => exact .same hcall

/-- Calls do not go away. -/
lemma call_persists (hstep : s.step dmaAddr l = some s') (h : s.call id = some cl) :
    ∃ cl', s'.call id = some cl' := by
  have hset : ∀ {s₁ : Sys} {i ci}, (∃ cl', s₁.call id = some cl') →
      ∃ cl', (s₁.setCall i ci).call id = some cl' := by
    rintro s₁ i ci ⟨cl', hcl'⟩
    by_cases hi : id = i
    · subst hi
      exact ⟨ci, setCall_self _ _ _⟩
    · exact ⟨cl', (setCall_of_ne _ _ hi).trans hcl'⟩
  cases stepSpec hstep with
  | enter _ => exact hset ⟨cl, h⟩
  | exec _ _ => exact hset ⟨cl, h⟩
  | wait _ _ _ => exact hset ⟨cl, h⟩
  | dev _ _ => exact ⟨cl, h⟩
  | irqEnter _ => exact ⟨cl, h⟩
  | irqRead _ => exact ⟨cl, h⟩
  | irqSet _ => exact ⟨cl, h⟩

end Sys

namespace Loops

variable {dmaAddr : Chan → BitVec 64} {x x' : Loops} {l : Label} {s' : Sys}

lemma Inv.init : Loops.init.Inv := ⟨nofun, nofun⟩

/-- What a call that is in its loop does, when it sees the channel `y`. -/
inductive WaitStep (y : ChanState) (a : CallArgs) : WaitEvent → CallPc → CallPc → Prop
  | wake : WaitStep y a .wake .waiting .woken
  | timeout : WaitStep y a .timeout .waiting (.ofOps (a.exit (-etimedout)))
  | signal : WaitStep y a .signal .waiting (.ofOps (a.exit (-erestartsys)))
  | testFlag : WaitStep y a .testFlag .woken (if y.flag ≠ 0 then .reading else .waiting)
  | readStatus : WaitStep y a .readStatus .reading (.ofOps (a.onStatus y.status))

lemma waitStep {e : WaitEvent} {ce : CallEvent} {y : ChanState} {dmaAddr : BitVec 64} {a : CallArgs}
    {pc pc' : CallPc} (hevent : e.event y = some ce) (hpc : pc.step dmaAddr a ce = some pc') :
    WaitStep y a e pc pc' := by
  cases e with
  | wake =>
    simp only [WaitEvent.event] at hevent
    split_ifs at hevent
    cases hevent
    cases pc with
    | waiting =>
      cases hpc
      exact .wake
    | run ops => cases ops <;> cases hpc
    | _ => cases hpc
  | timeout =>
    simp only [WaitEvent.event] at hevent
    split_ifs at hevent
    cases hevent
    cases pc with
    | waiting =>
      cases hpc
      exact .timeout
    | run ops => cases ops <;> cases hpc
    | _ => cases hpc
  | signal =>
    simp only [WaitEvent.event] at hevent
    split_ifs at hevent
    cases hevent
    cases pc with
    | waiting =>
      cases hpc
      exact .signal
    | run ops => cases ops <;> cases hpc
    | _ => cases hpc
  | testFlag =>
    cases hevent
    cases pc with
    | woken =>
      cases hpc
      simpa using WaitStep.testFlag (y := y) (a := a)
    | run ops => cases ops <;> cases hpc
    | _ => cases hpc
  | readStatus =>
    cases hevent
    cases pc with
    | reading =>
      cases hpc
      exact .readStatus
    | run ops => cases ops <;> cases hpc
    | _ => cases hpc

lemma ofOps_eq_waiting {ops : List DrvOp} : CallPc.ofOps ops = .waiting ↔ ops = [] := by
  cases ops with
  | nil => exact iff_of_true rfl rfl
  | cons op ops => exact iff_of_false nofun nofun

lemma exit_ne_nil (a : CallArgs) (e : ℤ) : a.exit e ≠ [] := by
  unfold CallArgs.exit
  split_ifs <;> exact nofun

lemma ofOps_settles {more ops : List DrvOp} (h : more ≠ [] → more.any DrvOp.settles = true)
    (hops : CallPc.ofOps more = .run ops) : ops.any DrvOp.settles = true := by
  cases more with
  | nil => cases hops
  | cons op more =>
    cases hops
    exact h nofun

/-- A straight line behind the wait settles the round. -/
lemma WaitStep.settles {y : ChanState} {a : CallArgs} {e : WaitEvent} {pc pc' : CallPc}
    (h : WaitStep y a e pc pc') {ops : List DrvOp} (hops : pc' = .run ops) :
    ops.any DrvOp.settles = true := by
  cases h with
  | wake => cases hops
  | timeout => exact ofOps_settles (fun _ => a.exit_settles _) hops
  | signal => exact ofOps_settles (fun _ => a.exit_settles _) hops
  | testFlag => split_ifs at hops
  | readStatus => exact ofOps_settles CallArgs.onStatus_settles hops

theorem Inv.step (h : x.Inv) (hstep : x.sys.step dmaAddr l = some s') :
    Inv ⟨s', x.idleNext l s', x.busy || x.comesBack l s'⟩ where
  born id hidle := by
    simp only [idleNext] at hidle
    split_ifs at hidle with hw
    · obtain ⟨cl, hcl, -⟩ := (Option.any_eq_true _ _).mp hw
      exact ⟨cl, hcl⟩
    · rw [Bool.and_eq_true] at hidle
      obtain ⟨cl, hcl⟩ := h.born id hidle.1
      exact Sys.call_persists hstep hcl
  settles id cl hcl hidle ops hops := by
    have hw : s'.atWait id = false := by
      rw [Sys.atWait_eq hcl, hops]
      rfl
    simp only [idleNext, hw, Bool.false_eq_true, if_false, Bool.and_eq_true, Bool.not_eq_true'] at hidle
    obtain ⟨hidle, hclear⟩ := hidle
    cases Sys.callStep hstep hcl with
    | same hcall => exact h.settles id cl hcall hidle ops hops
    | enter a hnone =>
      obtain ⟨cl, hcl⟩ := h.born id hidle
      rw [hnone] at hcl
      cases hcl
    | exec hcall hpc =>
      rw [Sys.clears_eq hcall hpc, decide_eq_false_iff_not] at hclear
      exact (CallPc.after_settles (h.settles id _ hcall hidle _ hpc) hclear).2 ops hops
    | wait hcall hevent hpc => exact (waitStep hevent hpc).settles hops

lemma comesBack_call {id : ℕ} (hl : l.call = some id) : x.comesBack l s' =
    (s'.atWait id && !x.sys.atWait id && (x.idle id && !x.sys.clears id l)) := by
  rw [comesBack, hl, Option.any_some]

/-- An idle round comes back exactly when its step is not handled. -/
theorem comesBack_iff (h : x.Inv) (hstep : x.sys.step dmaAddr l = some s') :
    x.comesBack l s' = true ↔ ¬x.Handled l := by
  cases Sys.stepSpec hstep with
  | enter _ => simp [comesBack, Label.call, Handled]
  | dev _ _ => simp [comesBack, Label.call, Handled]
  | irqEnter _ => simp [comesBack, Label.call, Handled]
  | irqRead _ => simp [comesBack, Label.call, Handled]
  | irqSet _ => simp [comesBack, Label.call, Handled]
  | @exec id answer cl op ops hcall hpc =>
    have hself := Sys.setCall_self (x.sys.setChan cl.args.chan ((x.sys.chan cl.args.chan).exec
      cl.args.chan id cl.args op answer)) id (cl.exec (dmaAddr cl.args.chan) op answer ops)
    rw [comesBack_call rfl, Sys.atWait_eq hself, Sys.clears_eq hcall hpc]
    refine iff_of_false (fun hback => ?_) (not_not.mpr trivial)
    simp only [Bool.and_eq_true, decide_eq_true_eq, Bool.not_eq_true', decide_eq_false_iff_not] at hback
    obtain ⟨⟨hwait, -⟩, hidle, hclear⟩ := hback
    exact (CallPc.after_settles (h.settles id cl hcall hidle _ hpc) hclear).1 hwait
  | @wait id e ce cl pc hcall hevent hpc =>
    have hself := Sys.setCall_self x.sys id { cl with pc := pc }
    have hclears : x.sys.clears id (.wait id e) = false := rfl
    have hwait := waitStep hevent hpc
    rw [comesBack_call rfl, Sys.atWait_eq hself, Sys.atWait_eq hcall, hclears]
    generalize hold : cl.pc = old at hwait
    cases hwait with
    | wake => simp [Handled]
    | timeout => simp [Handled, ofOps_eq_waiting, exit_ne_nil]
    | signal => simp [Handled, ofOps_eq_waiting, exit_ne_nil]
    | testFlag =>
      rw [Handled, Sys.flagSet_eq hcall]
      simp [and_comm]
    | readStatus =>
      have hhandles : x.Handled (.wait id .readStatus) ↔ (x.idle id = true →
          cl.args.onStatus (x.sys.chan cl.args.chan).status ≠ []) := by
        simp [Handled, hcall, CallArgs.handles]
      rw [hhandles]
      simp [ofOps_eq_waiting, and_comm]

theorem stepSpec (h : x.step dmaAddr l = some x') : ∃ s', x.sys.step dmaAddr l = some s' ∧
    x' = ⟨s', x.idleNext l s', x.busy || x.comesBack l s'⟩ := by
  obtain ⟨s', hs, hx⟩ := Option.map_eq_some_iff.mp h
  exact ⟨s', hs, hx.symm⟩

theorem inv_of_reaches {allowed : Loops → Label → Prop} (h : Reaches (step dmaAddr) allowed init x) :
    x.Inv := by
  refine h.invariant .init fun x l x' hx _ hstep => ?_
  obtain ⟨s', hs, rfl⟩ := stepSpec hstep
  exact hx.step hs

/-- In a run no round comes back to its wait without having slept or cleared its flag exactly when each
step of it is handled. -/
theorem no_busy_round_iff (h : Reaches (step dmaAddr) (fun _ _ => True) init x) :
    x.busy = false ↔ Reaches (step dmaAddr) Handled init x := by
  constructor
  · intro hbusy
    induction h with
    | refl => exact .refl
    | @step x x' l hr _ hstep ih =>
      obtain ⟨s', hs, rfl⟩ := stepSpec hstep
      rw [Bool.or_eq_false_iff] at hbusy
      refine .step (ih hbusy.1) ?_ hstep
      by_contra hnot
      rw [(comesBack_iff (inv_of_reaches hr) hs).mpr hnot] at hbusy
      cases hbusy.2
  · intro hr
    clear h
    induction hr with
    | refl => rfl
    | @step x x' l hr hl hstep ih =>
      obtain ⟨s', hs, rfl⟩ := stepSpec hstep
      rw [Bool.or_eq_false_iff]
      refine ⟨ih, ?_⟩
      rw [Bool.eq_false_iff]
      exact fun hback => (comesBack_iff (inv_of_reaches hr) hs).mp hback hl

/-- `block_c2h` returns without a busy round. -/
theorem no_busy_round_block_c2h : ∃ x : Loops, Reaches (step fun _ => 0) Handled init x ∧
    ∃ cl, x.sys.call 0 = some cl ∧ cl.pc = .returned (.transferred 64) := by
  have hrun : (runSteps (fun x l => if true = true then step (fun _ => 0) x l else none) init
      (blockC2hEntry 0 ++ blockC2hTransfer 0 ++ blockC2hReturn 0)).any (fun x => !x.busy &&
        (x.sys.call 0).any fun cl => decide (cl.pc = .returned (.transferred 64))) = true := by
    decide +kernel
  obtain ⟨x, hx, hret⟩ := (Option.any_eq_true _ _).mp hrun
  rw [Bool.and_eq_true, Bool.not_eq_true'] at hret
  obtain ⟨cl, hcl, hpc⟩ := (Option.any_eq_true _ _).mp hret.2
  have hr : Reaches (step fun _ => 0) (fun _ _ => True) init x :=
    reaches_of_runSteps .refl (fun _ _ _ => trivial) hx
  exact ⟨x, (no_busy_round_iff hr).mp hret.1, cl, hcl, of_decide_eq_true hpc⟩

end Loops

/-! ### The loop that does not end -/

namespace Sys

variable {s : Sys} {dmaAddr : Chan → BitVec 64} {id : ℕ} {cl : Call}

lemma step_wait {e : WaitEvent} {ce : CallEvent} {pc : CallPc} (hcall : s.call id = some cl)
    (hevent : e.event (s.chan cl.args.chan) = some ce)
    (hpc : cl.pc.step (dmaAddr cl.args.chan) cl.args ce = some pc) :
    s.step dmaAddr (.wait id e) = some (s.setCall id { cl with pc := pc }) := by
  simp [step, hcall, hevent, hpc]

lemma setCall_setCall (cl cl' : Call) : (s.setCall id cl).setCall id cl' = s.setCall id cl' := by
  simp [setCall]

lemma setCall_eq_self (h : s.call id = some cl) : s.setCall id cl = s := by
  simp [setCall, ← h]

/-- With its flag set and a status that its loop does not handle, a call goes round without a change, and neither
the timeout nor a signal ends it. -/
theorem spins (hcall : s.call id = some cl) (hpc : cl.pc = .waiting)
    (hflag : (s.chan cl.args.chan).flag ≠ 0)
    (hstatus : cl.args.handles (s.chan cl.args.chan).status = false) :
    runSteps (step dmaAddr) s [.wait id .wake, .wait id .testFlag, .wait id .readStatus] = some s ∧
      s.step dmaAddr (.wait id .timeout) = none ∧ s.step dmaAddr (.wait id .signal) = none := by
  have hnil : cl.args.onStatus (s.chan cl.args.chan).status = [] := by
    simpa [CallArgs.handles] using hstatus
  have hwake : s.step dmaAddr (.wait id .wake) = some (s.setCall id { cl with pc := .woken }) :=
    step_wait hcall (if_pos hflag) (by rw [hpc]; rfl)
  have htest : (s.setCall id { cl with pc := .woken }).step dmaAddr (.wait id .testFlag) =
      some (s.setCall id { cl with pc := .reading }) := by
    rw [step_wait (setCall_self _ _ _) rfl rfl, setCall_setCall]
    exact congrArg (fun pc => some (s.setCall id { cl with pc := pc })) (if_pos (decide_eq_true hflag))
  have hread : (s.setCall id { cl with pc := .reading }).step dmaAddr (.wait id .readStatus) =
      some (s.setCall id { cl with pc := .waiting }) := by
    rw [step_wait (setCall_self _ _ _) rfl rfl, setCall_setCall]
    simp only [setCall_chan, hnil]
    rfl
  have hsame : ({ cl with pc := .waiting } : Call) = cl := by rw [← hpc]
  refine ⟨?_, ?_, ?_⟩
  · rw [runSteps, hwake, Option.bind_some, runSteps, htest, Option.bind_some, runSteps, hread,
      Option.bind_some, runSteps, hsame, setCall_eq_self hcall]
  · simp only [step, hcall, WaitEvent.event, if_neg hflag, Option.bind_none]
  · simp only [step, hcall, WaitEvent.event, if_neg hflag, Option.bind_none]

end Sys

/-- Nine steps of the interrupt handler, with an event of the device between the reads of the two block
channels and the others. -/
def irqAround (e : Label) : List Label :=
  List.replicate 3 .irq ++ [e] ++ List.replicate 6 .irq

/-- The handler runs for `block_c2h` of call 0 and again for `block_h2c` of call 1. The second run has read the
status of the first call when this call clears it and returns, and sets its flag again: call 2 finds a flag
without a status. -/
def staleFlag : List Label :=
  blockC2hEntry 0 ++ .enter 1 ⟨.h2cBl, 64, 0⟩ :: List.replicate 7 (.exec 1 (some 0)) ++
    [.dev .c2hBl (.issue 64), .dev .c2hBl (.count 0 64 64), .dev .c2hBl .done, .dev .c2hBl .finish,
      .dev .h2cBl (.issue 64), .dev .h2cBl (.count 1 64 64), .dev .h2cBl (.arrive 1 64)] ++
    irqAround (.dev .h2cBl .done) ++ List.replicate 5 .irq ++ blockC2hReturn 0 ++
    List.replicate 4 .irq ++ blockC2hEntry 2 ++ [.wait 2 .wake, .wait 2 .testFlag, .wait 2 .readStatus]

/-- A call that spins: its round comes back to the state in which it began. -/
theorem stale_flag_spins : ∃ x : Loops, Reaches (Loops.step fun _ => 0) (fun _ _ => True) Loops.init x ∧
    x.busy = true ∧
    runSteps (Sys.step fun _ => 0) x.sys [.wait 2 .wake, .wait 2 .testFlag, .wait 2 .readStatus] =
      some x.sys ∧
    x.sys.step (fun _ => 0) (.wait 2 .timeout) = none ∧ x.sys.step (fun _ => 0) (.wait 2 .signal) = none := by
  have hrun : (runSteps (fun x l => if true = true then Loops.step (fun _ => 0) x l else none) Loops.init
      staleFlag).any (fun x => x.busy && (x.sys.call 2).any fun cl => decide (cl.pc = .waiting ∧
        (x.sys.chan cl.args.chan).flag ≠ 0 ∧
          cl.args.handles (x.sys.chan cl.args.chan).status = false)) = true := by
    decide +kernel
  obtain ⟨x, hx, hbad⟩ := (Option.any_eq_true _ _).mp hrun
  rw [Bool.and_eq_true] at hbad
  obtain ⟨cl, hcl, hspin⟩ := (Option.any_eq_true _ _).mp hbad.2
  obtain ⟨hpc, hflag, hstatus⟩ := of_decide_eq_true hspin
  exact ⟨x, reaches_of_runSteps .refl (fun _ _ _ => trivial) hx, hbad.1, Sys.spins hcl hpc hflag hstatus⟩

end FpgaPcie
