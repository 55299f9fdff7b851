import FpgaPcie.Rtl.RegisterFile

/-!
# Runs of the BAR

Requests are presented in order, each until it is accepted. The trace keeps what has gone in and out,
and the order in which the requests take effect: a write when its address is taken by the register
file, a read when its address is, each between two samples of the hardware status.

Between two requests the registers of both machines go through a fixed sequence of phases.
-/

namespace FpgaPcie

/-- What the surroundings do in one cycle. -/
structure BarCycle where
  /-- a request that waits is presented -/
  present : Bool
  txCplTlpReady : Bool
  status : BarChannel → BitVec 32

structure BarTrace where
  bar : BarMaster
  todo : List BarTlp
  accepted : List BarTlp
  handed : List CplD
  pulses : List (BarStart × BarConfig)
  log : List BarEvent

namespace BarTrace

variable (t : BarTrace) (e : BarCycle)

def input : BarInput where
  rxReqTlp := if e.present then t.todo.head? else none
  txCplTlpReady := e.txCplTlpReady
  status := e.status

/-- What happens to the register file in one cycle. -/
def events : List BarEvent :=
  let request := (t.accepted.getLast?.map BarEvent.request).toList
  if t.bar.axil.awvalid && t.bar.barRegister.axiAwready then .sample e.status :: request
  else if t.bar.axil.arvalid && t.bar.barRegister.axiArready then request ++ [.sample e.status]
  else [.sample e.status]

/-- The completion in the output register. -/
def waiting : List CplD :=
  if t.bar.txCplTlpValidReg then [CplD.ofHdr t.bar.txCplTlpHdrReg t.bar.txCplTlpDataReg] else []

/-- The completion of a read that has found its data. -/
def reading : List CplD :=
  if t.bar.mState = .rData then
    [CplD.ofHdr (cplHdr t.bar.requesterId t.bar.requesterTag t.bar.requesterAddr)
      t.bar.barRegister.axiRdata] else []

def clock : BarTrace where
  bar := t.bar.clock (t.input e)
  todo := if (t.bar.accepted (t.input e)).isSome then t.todo.tail else t.todo
  accepted := t.accepted ++ (t.bar.accepted (t.input e)).toList
  handed := t.handed ++ if e.txCplTlpReady then t.waiting else []
  pulses := t.pulses ++ t.bar.barRegister.pulses
  log := t.log ++ t.events e

def start (requests : List BarTlp) : BarTrace := ⟨.reset, requests, [], [], [], []⟩

def run (requests : List BarTlp) (env : ℕ → BarCycle) : ℕ → BarTrace
  | 0 => start requests
  | n + 1 => (run requests env n).clock (env n)

/-- The atomic register file behind the requests that have taken effect. -/
def file : RegisterFile := .run t.log

end BarTrace

/-- The handshake registers of both machines. -/
structure BarCtl where
  mState : BarState
  awvalid : Bool
  awready : Bool
  wvalid : Bool
  wready : Bool
  bvalid : Bool
  bready : Bool
  arvalid : Bool
  arready : Bool
  rvalid : Bool
  rready : Bool

def BarMaster.ctl (s : BarMaster) : BarCtl where
  mState := s.mState
  awvalid := s.axil.awvalid
  awready := s.barRegister.axiAwready
  wvalid := s.axil.wvalid
  wready := s.barRegister.axiWready
  bvalid := s.barRegister.axiBvalid
  bready := s.axil.bready
  arvalid := s.axil.arvalid
  arready := s.barRegister.axiArready
  rvalid := s.barRegister.axiRvalid
  rready := s.axil.rready

/-- The phases of an access, named for the channel at work and the handshake wires that are up. -/
inductive BarPhase
  | idle
  | aw0 | aw1 | aw2 | w0 | w1 | w2 | b0 | b1
  | ar0 | ar1 | ar2 | r0 | r1
  deriving DecidableEq

namespace BarPhase

def ctl : BarPhase → BarCtl
  | idle => ⟨.idle, false, false, false, false, false, false, false, false, false, false⟩
  | aw0 => ⟨.wAddr, false, false, false, false, false, false, false, false, false, false⟩
  | aw1 => ⟨.wAddr, true, false, false, false, false, false, false, false, false, false⟩
  | aw2 => ⟨.wAddr, true, true, false, false, false, false, false, false, false, false⟩
  | w0 => ⟨.wData, false, false, false, false, false, false, false, false, false, false⟩
  | w1 => ⟨.wData, false, false, true, false, false, false, false, false, false, false⟩
  | w2 => ⟨.wData, false, false, true, true, false, false, false, false, false, false⟩
  | b0 => ⟨.wEnd, false, false, false, false, true, false, false, false, false, false⟩
  | b1 => ⟨.wEnd, false, false, false, false, true, true, false, false, false, false⟩
  | ar0 => ⟨.rAddr, false, false, false, false, false, false, false, false, false, false⟩
  | ar1 => ⟨.rAddr, false, false, false, false, false, false, true, false, false, false⟩
  | ar2 => ⟨.rAddr, false, false, false, false, false, false, true, true, false, false⟩
  | r0 => ⟨.rData, false, false, false, false, false, false, false, false, true, false⟩
  | r1 => ⟨.rData, false, false, false, false, false, false, false, false, true, true⟩

/-- The phase behind this one, which in `idle` a request decides. -/
def next : BarPhase → Option BarTlp → BarPhase
  | idle, none => idle
  | idle, some r => if r.fmt = tlpFmt4dwBits then ar0 else aw0
  | aw0, _ => aw1
  | aw1, _ => aw2
  | aw2, _ => w0
  | w0, _ => w1
  | w1, _ => w2
  | w2, _ => b0
  | b0, _ => b1
  | b1, _ => idle
  | ar0, _ => ar1
  | ar1, _ => ar2
  | ar2, _ => r0
  | r0, _ => r1
  | r1, _ => idle

/-- The request has been accepted and has not taken effect. -/
def inFlight : BarPhase → Bool
  | aw0 | aw1 | aw2 | ar0 | ar1 | ar2 => true
  | _ => false

/-- The write has taken effect and its register has not changed yet. -/
def writing : BarPhase → Bool
  | w0 | w1 | w2 => true
  | _ => false

def isWrite : BarPhase → Bool
  | aw0 | aw1 | aw2 | w0 | w1 | w2 | b0 | b1 => true
  | _ => false

def isRead : BarPhase → Bool
  | ar0 | ar1 | ar2 | r0 | r1 => true
  | _ => false

end BarPhase

namespace BarMaster

variable {s : BarMaster} {ph : BarPhase} (i : BarInput)

lemma ctl_clock (h : s.ctl = ph.ctl)
    (hfmt : ∀ r, s.accepted i = some r → r.fmt = tlpFmt4dwBits ∨ r.fmt = tlpFmt4dwDataBits) :
    (s.clock i).ctl = (ph.next (s.accepted i)).ctl := by
  simp only [ctl, clock, axilNext, BarRegister.clock, mNextState]
  have hs := h
  cases ph with
  | idle =>
    simp only [ctl, BarPhase.ctl, BarCtl.mk.injEq] at hs
    cases ha : s.accepted i with
    | none => simp [hs, BarPhase.next, BarPhase.ctl, flagNext, BarRegister.readyNext]
    | some r =>
      rcases hfmt r ha with hf | hf
      · simp [hs, hf, BarPhase.next, BarPhase.ctl, flagNext, BarRegister.readyNext]
      · have hne : tlpFmt4dwDataBits ≠ tlpFmt4dwBits := by decide
        simp [hs, hf, hne, BarPhase.next, BarPhase.ctl, flagNext, BarRegister.readyNext]
  | _ =>
    simp only [ctl, BarPhase.ctl, BarCtl.mk.injEq] at hs
    simp [hs, BarPhase.next, BarPhase.ctl, flagNext, BarRegister.readyNext]

end BarMaster

end FpgaPcie
