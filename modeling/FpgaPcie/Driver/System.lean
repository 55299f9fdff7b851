import FpgaPcie.Driver.Device
import FpgaPcie.Lib.Transition

/-!
# The driver and the device

Any number of calls, the interrupt handler and the four channels take their steps in any order.
Each access to a register or a flag is one step.
-/

namespace FpgaPcie

/-- A call of one of the four functions; `copied` and `freed` record what it has done. -/
structure Call where
  args : CallArgs
  pc : CallPc
  copied : Bool := false
  freed : Bool := false

/-- `fpga_irq_handler` and `process_irq`: the status registers are read one by one, and then the
flags are set one by one to what has been read. -/
inductive Handler
  | idle
  | reads (todo : List Chan) (seen : Chan → BitVec 32)
  | sets (todo : List Chan) (seen : Chan → BitVec 32)

/-- The order of the reads and of the `atomic_set`s. -/
def irqOrder : List Chan := [.c2hBl, .h2cBl, .c2hSg, .h2cSg]

structure Sys where
  chan : Chan → ChanState
  call : ℕ → Option Call
  handler : Handler
  msi : Bool

/-- What a call that is in its wait loop can do. -/
inductive WaitEvent
  | wake
  | timeout
  | signal
  | testFlag
  | readStatus
  deriving DecidableEq

inductive Label
  /-- an ioctl begins a call -/
  | enter (id : ℕ) (a : CallArgs)
  /-- the next operation of a call, with what it answers -/
  | exec (id : ℕ) (answer : Option ℕ)
  | wait (id : ℕ) (e : WaitEvent)
  | dev (c : Chan) (e : DevEvent)
  /-- the next step of the interrupt handler -/
  | irq

/-- A copy out of the buffer that succeeds. -/
def DrvOp.copies (answer : Option ℕ) : DrvOp → Bool
  | .copyToUser _ => answer.isSome
  | .copyFromUser _ | .getSgList | .writeReg _ _ | .clearFlag | .freeSgBuf | .ret _ => false

def Call.exec (dmaAddr : BitVec 64) (cl : Call) (op : DrvOp) (answer : Option ℕ)
    (ops : List DrvOp) : Call :=
  { cl with
    pc := .after dmaAddr cl.args op answer ops
    copied := cl.copied || op.copies answer
    freed := cl.freed || decide (op = .freeSgBuf) }

/-- What a call sees of its channel. A wait ends with a timeout or a signal only while the flag
is zero. -/
def WaitEvent.event (x : ChanState) : WaitEvent → Option CallEvent
  | .wake => if x.flag ≠ 0 then some .wake else none
  | .timeout => if x.flag = 0 then some .timeout else none
  | .signal => if x.flag = 0 then some .signal else none
  | .testFlag => some (.testFlag (x.flag ≠ 0))
  | .readStatus => some (.readStatus x.status)

namespace Sys

def init : Sys where
  chan := fun _ => .reset
  call := fun _ => none
  handler := .idle
  msi := false

variable (dmaAddr : Chan → BitVec 64) (s : Sys)

def setCall (id : ℕ) (cl : Call) : Sys := { s with call := Function.update s.call id (some cl) }

def setChan (c : Chan) (x : ChanState) : Sys := { s with chan := Function.update s.chan c x }

@[simp] lemma setCall_chan (id : ℕ) (cl : Call) : (s.setCall id cl).chan = s.chan := rfl

lemma setCall_self (id : ℕ) (cl : Call) : (s.setCall id cl).call id = some cl :=
  Function.update_self _ _ _

lemma setCall_of_ne {id i : ℕ} (cl : Call) (h : i ≠ id) : (s.setCall id cl).call i = s.call i :=
  Function.update_of_ne h _ _

@[simp] lemma setChan_call (c : Chan) (x : ChanState) : (s.setChan c x).call = s.call := rfl

lemma setChan_self (c : Chan) (x : ChanState) : (s.setChan c x).chan c = x :=
  Function.update_self _ _ _

lemma setChan_of_ne {c d : Chan} (x : ChanState) (h : d ≠ c) : (s.setChan c x).chan d = s.chan d :=
  Function.update_of_ne h _ _

/-- The handler begins, reads the next register or sets the next flag. An interrupt that comes
in the meantime is remembered in `msi`. -/
def stepIrq : Option Sys :=
  match s.handler with
  | .idle => some { s with handler := .reads irqOrder fun _ => 0, msi := false }
  | .reads (c :: cs) seen =>
    let seen := Function.update seen c (s.chan c).status
    some { s with handler := if cs = [] then .sets irqOrder seen else .reads cs seen }
  | .sets (c :: cs) seen =>
    some { s.setChan c { s.chan c with flag := seen c } with
      handler := if cs = [] then .idle else .sets cs seen }
  | .reads [] _ | .sets [] _ => none

def step : Label → Option Sys
  | .enter id a =>
    match s.call id with
    | none => some (s.setCall id { args := a, pc := .ofOps (a.entry (dmaAddr a.chan)) })
    | some _ => none
  | .exec id answer =>
    match s.call id with
    | none => none
    | some cl =>
      match cl.pc with
      | .run (op :: ops) =>
        let c := cl.args.chan
        some ((s.setChan c ((s.chan c).exec c id cl.args op answer)).setCall id
          (cl.exec (dmaAddr c) op answer ops))
      | _ => none
  | .wait id e =>
    match s.call id with
    | none => none
    | some cl =>
      let c := cl.args.chan
      match (e.event (s.chan c)).bind (cl.pc.step (dmaAddr c) cl.args) with
      | none => none
      | some pc => some (s.setCall id { cl with pc := pc })
  | .dev c e =>
    if e.isForeign = true ∧ (s.chan .c2hSg).engine.isFetching = false then none
    else
      match (s.chan c).dev c e with
      | none => none
      | some x => some { s.setChan c x with msi := s.msi || e.pulses }
  | .irq => s.stepIrq

/-- Everything that a step can do. -/
inductive StepSpec : Label → Sys → Prop
  | enter {id : ℕ} {a : CallArgs} (hcall : s.call id = none) :
      StepSpec (.enter id a) (s.setCall id { args := a, pc := .ofOps (a.entry (dmaAddr a.chan)) })
  | exec {id : ℕ} {answer : Option ℕ} {cl : Call} {op : DrvOp} {ops : List DrvOp}
      (hcall : s.call id = some cl) (hpc : cl.pc = .run (op :: ops)) :
      StepSpec (.exec id answer) ((s.setChan cl.args.chan
        ((s.chan cl.args.chan).exec cl.args.chan id cl.args op answer)).setCall id
          (cl.exec (dmaAddr cl.args.chan) op answer ops))
  | wait {id : ℕ} {e : WaitEvent} {ce : CallEvent} {cl : Call} {pc : CallPc}
      (hcall : s.call id = some cl) (hevent : e.event (s.chan cl.args.chan) = some ce)
      (hpc : cl.pc.step (dmaAddr cl.args.chan) cl.args ce = some pc) :
      StepSpec (.wait id e) (s.setCall id { cl with pc := pc })
  | dev {c : Chan} {e : DevEvent} {x : ChanState}
      (hforeign : e.isForeign = true → (s.chan .c2hSg).engine.isFetching = true)
      (hdev : (s.chan c).dev c e = some x) :
      StepSpec (.dev c e) { s.setChan c x with msi := s.msi || e.pulses }
  | irqEnter (hidle : s.handler = .idle) :
      StepSpec .irq { s with handler := .reads irqOrder fun _ => 0, msi := false }
  | irqRead {c : Chan} {cs : List Chan} {seen : Chan → BitVec 32}
      (hreads : s.handler = .reads (c :: cs) seen) :
      StepSpec .irq { s with
        handler :=
          if cs = [] then .sets irqOrder (Function.update seen c (s.chan c).status)
          else .reads cs (Function.update seen c (s.chan c).status) }
  | irqSet {c : Chan} {cs : List Chan} {seen : Chan → BitVec 32}
      (hsets : s.handler = .sets (c :: cs) seen) :
      StepSpec .irq { s.setChan c { s.chan c with flag := seen c } with
        handler := if cs = [] then .idle else .sets cs seen }

variable {dmaAddr s} {s' : Sys} {l : Label}

theorem stepSpec (h : s.step dmaAddr l = some s') : StepSpec dmaAddr s l s' := by
  cases l with
  | enter id a =>
    cases hcall : s.call id with
    | none =>
      simp only [step, hcall, Option.some.injEq] at h
      exact h ▸ .enter hcall
    | some cl => simp [step, hcall] at h
  | exec id answer =>
    cases hcall : s.call id with
    | none => simp [step, hcall] at h
    | some cl =>
      simp only [step, hcall] at h
      split at h
      · next op ops hpc =>
        cases h
        exact .exec hcall hpc
      · cases h
  | wait id e =>
    cases hcall : s.call id with
    | none => simp [step, hcall] at h
    | some cl =>
      simp only [step, hcall] at h
      split at h
      · cases h
      · next pc hpc =>
        cases h
        obtain ⟨ce, hevent, hstep⟩ := Option.bind_eq_some_iff.mp hpc
        exact .wait hcall hevent hstep
  | dev c e =>
    simp only [step] at h
    split_ifs at h with hforeign
    split at h
    · cases h
    · next x hdev =>
      cases h
      refine .dev (fun he => ?_) hdev
      rw [not_and, Bool.not_eq_false] at hforeign
      exact hforeign he
  | irq =>
    simp only [step, stepIrq] at h
    split at h
    · next hidle =>
      cases h
      exact .irqEnter hidle
    · next c cs seen hreads =>
      cases h
      exact .irqRead hreads
    · next c cs seen hsets =>
      cases h
      exact .irqSet hsets
    · cases h
    · cases h

end Sys

/-- A call that has neither returned nor crashed. -/
def CallPc.active : CallPc → Bool
  | .returned _ | .oops => false
  | .run _ | .waiting | .woken | .reading => true

/-- Call `id` is on channel `c` and active. -/
structure Sys.Active (s : Sys) (c : Chan) (id : ℕ) (cl : Call) : Prop where
  call : s.call id = some cl
  chan : cl.args.chan = c
  active : cl.pc.active = true

end FpgaPcie
