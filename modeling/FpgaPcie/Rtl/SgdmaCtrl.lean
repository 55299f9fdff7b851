import FpgaPcie.Rtl.Stream
import FpgaPcie.Rtl.Tlp
import FpgaPcie.Rtl.TlpMux

/-!
# The link controller `sgdma_if_pcie_ctrl`

Two ports share the link: port 0 is the H2C side, port 1 the list fetch of the C2H side. Their MRds
go out through the multiplexer. The completions are not routed: both ports see every completion
beat as valid, and the link sees the ready of either port.
-/

namespace FpgaPcie

/-- An MRd with the port that issued it. The multiplexer passes the words of its ports on unchanged,
so that the port is known when the MRd is sent. -/
structure PortMrd where
  port : Fin 2
  hdr : TlpHdr
  seq : ℕ

/-- The multiplexer of the two ports out of reset. -/
abbrev muxReset : TlpMuxState 2 PortMrd := TlpMuxState.reset 2 ⟨0, TlpHdr.zero, 0⟩

/-- A completion beat on a bus of `w` bytes. -/
structure CplTlp (w : ℕ) where
  hdr : BitVec 128
  data : Bytes w
  sop : Bool
  eop : Bool

structure CtrlInput (w : ℕ) where
  rxRdReqTlpHdr : Fin 2 → TlpHdr
  rxRdReqTlpSeq : Fin 2 → ℕ
  rxRdReqTlpValid : Fin 2 → Bool
  rxRdReqTlpSop : Fin 2 → Bool
  rxRdReqTlpEop : Fin 2 → Bool
  txRdReqTlpReady : Bool
  rxCplTlp : CplTlp w
  rxCplTlpValid : Bool
  txCplTlpReady : Fin 2 → Bool

variable {w : ℕ}

namespace CtrlInput

variable (i : CtrlInput w)

def muxInput : TlpMuxInput 2 PortMrd where
  inTlp := fun p => ⟨⟨p, i.rxRdReqTlpHdr p, i.rxRdReqTlpSeq p⟩, i.rxRdReqTlpSop p, i.rxRdReqTlpEop p⟩
  inTlpValid := i.rxRdReqTlpValid
  outTlpReady := i.txRdReqTlpReady

/-! ### The completion channel -/

def txCplTlp (_p : Fin 2) : CplTlp w := i.rxCplTlp

def txCplTlpValid (_p : Fin 2) : Bool := i.rxCplTlpValid

def rxCplTlpReady : Bool := i.txCplTlpReady 0 || i.txCplTlpReady 1

lemma rxCplTlpReady_of_port (p : Fin 2) : i.txCplTlpReady p = true → i.rxCplTlpReady = true := by
  rw [rxCplTlpReady, Bool.or_eq_true]
  revert p
  exact Fin.forall_fin_two.mpr ⟨Or.inl, Or.inr⟩

end CtrlInput

/-! ### The controller and its link -/

/-- A cycle of the link: the inputs, and the position of the MRd that the completion beat answers
among the MRds sent. -/
structure CtrlCycle (w : ℕ) extends CtrlInput w where
  answers : ℕ

/-- The multiplexer is the only state of the controller. The logs of a run are the completion beats
accepted on the link, each with the port that issued the MRd it answers, and the beats handed over
to each port. -/
structure CtrlSystem (w : ℕ) where
  tlpMux : TlpMuxSystem 2 PortMrd
  accepted : List (Option (Fin 2) × CplTlp w)
  handed : Fin 2 → List (CplTlp w)

namespace CtrlSystem

variable (x : CtrlSystem w) (i : CtrlCycle w)

/-- The port that issued the MRd that the completion beat answers. -/
def owner : Option (Fin 2) := (x.tlpMux.transmitted[i.answers]?).map fun b => b.tlp.port

def step : CtrlSystem w where
  tlpMux := x.tlpMux.step i.muxInput
  accepted := x.accepted ++ if i.rxCplTlpValid && i.rxCplTlpReady then [(x.owner i, i.rxCplTlp)] else []
  handed := fun p => x.handed p ++ if i.txCplTlpValid p && i.txCplTlpReady p then [i.txCplTlp p] else []

def run (x : CtrlSystem w) (i : ℕ → CtrlCycle w) : ℕ → CtrlSystem w
  | 0 => x
  | t + 1 => (x.run i t).step (i t)

/-- The controller out of reset. -/
def fresh (w : ℕ) : CtrlSystem w :=
  ⟨TlpMuxSystem.fresh muxReset, [], fun _ => []⟩

/-- A completion beat answers an MRd that has been sent, and has its tag. -/
def Legal : Prop := i.rxCplTlpValid = true → ∃ mrd, x.tlpMux.transmitted[i.answers]? = some mrd ∧
  rxCplTlpHdrTag i.rxCplTlp.hdr = mrd.tlp.hdr.tag

/-- Every accepted completion beat has been handed over once, in order, to the port that issued the
MRd it answers, and to no other port. -/
def Routed : Prop :=
  ∀ p, x.handed p = (x.accepted.filter fun b => b.1 = some p).map Prod.snd

/-- While a completion beat is offered, no port but the one it is for is ready. -/
def OthersWait : Prop := i.rxCplTlpValid = true → ∀ p, x.owner i ≠ some p → i.txCplTlpReady p = false

variable {x i}

/-- The MRds of a port are sent in order and each one once, as the MRds of this port. -/
theorem mrds_conserved (i : ℕ → CtrlCycle w) (t : ℕ) :
    TlpMuxSystem.Conserves PortMrd.port ((fresh w).run i t).tlpMux := by
  induction t with
  | zero => exact TlpMuxSystem.fresh_conserves _ _
  | succ t ih => exact ih.step fun _ _ => rfl

/-! ### Routing -/

lemma handed_step (p : Fin 2) : (x.step i).handed p =
    x.handed p ++ if i.rxCplTlpValid && i.txCplTlpReady p then [i.rxCplTlp] else [] := rfl

lemma accepted_step (p : Fin 2) :
    ((x.step i).accepted.filter fun b => b.1 = some p).map Prod.snd =
      (x.accepted.filter fun b => b.1 = some p).map Prod.snd ++
        if i.rxCplTlpValid && (i.rxCplTlpReady && decide (x.owner i = some p)) then [i.rxCplTlp]
        else [] := by
  rw [step, List.filter_append, List.map_append]
  congr 1
  by_cases ha : (i.rxCplTlpValid && i.rxCplTlpReady) = true
  · rw [if_pos ha, ← Bool.and_assoc, ha, Bool.true_and]
    by_cases ho : x.owner i = some p
    · simp [ho]
    · simp [ho]
  · rw [if_neg ha]
    rw [Bool.not_eq_true] at ha
    rw [← Bool.and_assoc, ha]
    rfl

lemma ite_singleton_inj {α : Type} (a : α) (b c : Bool) :
    (if b then [a] else []) = (if c then [a] else []) ↔ b = c := by
  cases b <;> cases c <;> simp

lemma ready_iff (hv : i.rxCplTlpValid = true) :
    (∀ p, i.txCplTlpReady p = (i.rxCplTlpReady && decide (x.owner i = some p))) ↔ OthersWait x i := by
  constructor
  · intro h _ p hp
    rw [h p, decide_eq_false hp, Bool.and_false]
  · intro h p
    by_cases hp : x.owner i = some p
    · have hother : ∀ q, q ≠ p → i.txCplTlpReady q = false := by
        intro q hq
        apply h hv
        rw [hp]
        exact fun he => hq (Option.some.inj he).symm
      rw [decide_eq_true hp, Bool.and_true, CtrlInput.rxCplTlpReady]
      match p with
      | 0 => rw [hother 1 (by decide), Bool.or_false]
      | 1 => rw [hother 0 (by decide), Bool.false_or]
    · rw [decide_eq_false hp, Bool.and_false]
      exact h hv p hp

/-- One cycle keeps the routing exactly when the other port waits. -/
theorem routed_step_iff (h : Routed x) : Routed (x.step i) ↔ OthersWait x i := by
  have hstep : Routed (x.step i) ↔ ∀ p, (i.rxCplTlpValid && i.txCplTlpReady p) =
      (i.rxCplTlpValid && (i.rxCplTlpReady && decide (x.owner i = some p))) := by
    apply forall_congr'
    intro p
    rw [handed_step, accepted_step, h p, List.append_cancel_left_eq, ite_singleton_inj]
  rw [hstep]
  cases hv : i.rxCplTlpValid with
  | false => simp [OthersWait, hv]
  | true =>
    rw [← ready_iff hv]
    simp

end CtrlSystem

/-- From reset on, for all MRds of the ports, all completions and all patterns of the ready signals,
the completions are routed at every time exactly when in every cycle with a completion beat the
port that did not issue the answered MRd is not ready. -/
theorem cpl_routing_iff (w : ℕ) (i : ℕ → CtrlCycle w) :
    (∀ t, ((CtrlSystem.fresh w).run i t).Routed) ↔
      ∀ t, ((CtrlSystem.fresh w).run i t).OthersWait (i t) := by
  constructor
  · intro h t
    exact (CtrlSystem.routed_step_iff (h t)).mp (h (t + 1))
  · intro h t
    induction t with
    | zero => exact fun p => rfl
    | succ t ih => exact (CtrlSystem.routed_step_iff ih).mpr (h t)

/-- Port 0 issues an MRd with tag 0; its completion comes when both ports are ready. -/
def bothReadyInput (t : ℕ) : CtrlCycle 64 where
  rxRdReqTlpHdr := fun _ => TlpHdr.zero
  rxRdReqTlpSeq := fun _ => 0
  rxRdReqTlpValid := fun p => t == 0 && p == 0
  rxRdReqTlpSop := fun _ => true
  rxRdReqTlpEop := fun _ => true
  txRdReqTlpReady := true
  rxCplTlp := ⟨0, fun _ => 0, true, true⟩
  rxCplTlpValid := t == 4
  txCplTlpReady := fun _ => true
  answers := 0

/-- The completion is handed over to port 1 as well. -/
theorem completion_broadcast :
    (∀ t, ((CtrlSystem.fresh 64).run bothReadyInput t).Legal (bothReadyInput t)) ∧
      ¬ ∀ t, ((CtrlSystem.fresh 64).run bothReadyInput t).Routed := by
  constructor
  · intro t hv
    have ht : t = 4 := by simpa [bothReadyInput] using hv
    subst ht
    exact ⟨⟨⟨0, TlpHdr.zero, 0⟩, true, true⟩, by rfl, by decide⟩
  · intro h
    have hroute := congrArg List.length (h 5 1)
    revert hroute
    decide

end FpgaPcie
