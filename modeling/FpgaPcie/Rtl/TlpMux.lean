import FpgaPcie.Lib.SkidBuffer
import Mathlib.Algebra.BigOperators.Fin
import Mathlib.Data.List.FinRange

/-!
# The TLP multiplexer `pcie_tlp_mux`

One clock edge of the multiplexer for `n` ports with one segment each and fixed priority (port 0
is the highest), and what it does over a run: the TLPs of every port are sent in order, each one
once. With one segment `port_seg_offset_reg` is zero in every cycle and is left out.
-/

namespace FpgaPcie

/-- A beat of a TLP. -/
structure MuxTlp (α : Type) where
  tlp : α
  sop : Bool
  eop : Bool

structure TlpMuxInput (n : ℕ) (α : Type) where
  inTlp : Fin n → MuxTlp α
  inTlpValid : Fin n → Bool
  outTlpReady : Bool

/-- The input registers, the frame and the output registers. -/
structure TlpMuxState (n : ℕ) (α : Type) where
  frameReg : Bool
  portReg : Fin n
  inTlpReg : Fin n → MuxTlp α
  inTlpValidReg : Fin n → Bool
  out : SkidBuffer (MuxTlp α)

variable {n : ℕ} {α : Type}

namespace TlpMuxState

variable (s : TlpMuxState n α) (i : TlpMuxInput n α)

/-- The port that is looked at: inside a frame the port of the frame, otherwise the first port
with a beat (and the last port, when there is none). -/
def portCyc : Fin n :=
  if s.frameReg then s.portReg
  else ((List.finRange n).find? s.inTlpValidReg).getD ⟨n - 1, by have := s.portReg.isLt; omega⟩

/-- `frame_cyc` when the segment is routed. -/
def frameCyc : Bool := s.frameReg || (List.finRange n).any s.inTlpValidReg

/-- The beat of this port goes to the output. -/
def commit : Bool := s.frameCyc && s.inTlpValidReg s.portCyc && s.out.readyIntReg

def inTlpReady (p : Fin n) : Bool := !(s.inTlpValidReg p && !(s.commit && s.portCyc == p))

/-- One rising clock edge out of reset. -/
def step : TlpMuxState n α where
  frameReg := if s.commit then s.frameCyc && !(s.inTlpReg s.portCyc).eop else s.frameReg
  portReg := if s.commit then s.portCyc else s.portReg
  inTlpReg := fun p => if s.inTlpReady p then i.inTlp p else s.inTlpReg p
  inTlpValidReg := fun p => if s.inTlpReady p then i.inTlpValid p else s.inTlpValidReg p
  out := s.out.step s.commit (s.inTlpReg s.portCyc) i.outTlpReady

def reset (n : ℕ) [NeZero n] (x : α) : TlpMuxState n α :=
  ⟨false, 0, fun _ => ⟨x, false, false⟩, fun _ => false, SkidBuffer.reset ⟨x, false, false⟩⟩

variable {s} {p : Fin n}

lemma commit_valid (h : s.commit = true) :
    s.inTlpValidReg s.portCyc = true ∧ s.out.readyIntReg = true := by
  simp only [commit, Bool.and_eq_true] at h
  exact ⟨h.1.2, h.2⟩

lemma ready_of_routed (hc : s.commit = true) : s.inTlpReady s.portCyc = true := by
  simp [inTlpReady, hc]

/-- A port whose beat is not routed takes the next one into an empty register only. -/
lemma ready_of_not_routed (hc : ¬(s.commit = true ∧ s.portCyc = p)) :
    s.inTlpReady p = !s.inTlpValidReg p := by
  have hnot : (s.commit && s.portCyc == p) = false := by simpa using hc
  simp [inTlpReady, hnot]

end TlpMuxState

/-- The multiplexer with the logs of a run: the beats taken at each port and the beats sent. -/
structure TlpMuxSystem (n : ℕ) (α : Type) where
  state : TlpMuxState n α
  issued : Fin n → List (MuxTlp α)
  transmitted : List (MuxTlp α)

namespace TlpMuxSystem

variable (x : TlpMuxSystem n α) (i : TlpMuxInput n α)

def step : TlpMuxSystem n α where
  state := x.state.step i
  issued := fun p => x.issued p ++ if i.inTlpValid p && x.state.inTlpReady p then [i.inTlp p] else []
  transmitted := x.transmitted ++ if x.state.out.outValidReg && i.outTlpReady then
    [x.state.out.outReg] else []

def run (x : TlpMuxSystem n α) (i : ℕ → TlpMuxInput n α) : ℕ → TlpMuxSystem n α
  | 0 => x
  | t + 1 => (x.run i t).step (i t)

def fresh (s : TlpMuxState n α) : TlpMuxSystem n α := ⟨s, fun _ => [], []⟩

/-- The beat in the input register of a port. -/
def slot (p : Fin n) : List (MuxTlp α) :=
  if x.state.inTlpValidReg p then [x.state.inTlpReg p] else []

/-- When the TLPs carry their port, every TLP taken at a port is sent once and in order, and what is
not sent yet is in the output registers or in the input register of its port. -/
structure Conserves (port : α → Fin n) (x : TlpMuxSystem n α) : Prop where
  out : x.state.out.WellFormed
  labelled : ∀ p, x.state.inTlpValidReg p = true → port (x.state.inTlpReg p).tlp = p
  order : ∀ p, (x.transmitted ++ x.state.out.pending).filter (fun w => decide (port w.tlp = p)) ++ x.slot p =
    x.issued p

variable {x i} {port : α → Fin n}

lemma fresh_conserves [NeZero n] (port : α → Fin n) (a : α) :
    Conserves port (fresh (TlpMuxState.reset n a)) :=
  ⟨SkidBuffer.reset_wellFormed _, nofun, fun _ => rfl⟩

/-- What leaves and what is in the output registers grows by the beat that is routed. -/
lemma transmitted_step (h : x.state.out.WellFormed) :
    (x.step i).transmitted ++ (x.step i).state.out.pending =
      x.transmitted ++ x.state.out.pending ++
        if x.state.commit then [x.state.inTlpReg x.state.portCyc] else [] := by
  have hp := @SkidBuffer.step_pending _ x.state.out x.state.commit i.outTlpReady
    (x.state.inTlpReg x.state.portCyc) h (fun hv => (TlpMuxState.commit_valid hv).2)
  rw [step, TlpMuxState.step, List.append_assoc, hp, List.append_assoc]

theorem Conserves.step (hport : ∀ p, i.inTlpValid p = true → port (i.inTlp p).tlp = p)
    (h : Conserves port x) : Conserves port (x.step i) := by
  refine ⟨h.out.step, fun p hv => ?_, fun p => ?_⟩
  · by_cases hr : x.state.inTlpReady p = true
    · simp only [TlpMuxSystem.step, TlpMuxState.step, hr, if_true] at hv ⊢
      exact hport p hv
    · simp only [TlpMuxSystem.step, TlpMuxState.step, hr] at hv ⊢
      exact h.labelled p hv
  · have horder := h.order p
    rw [transmitted_step h.out, List.filter_append]
    by_cases hc : x.state.commit = true ∧ x.state.portCyc = p
    · -- the beat in the input register is routed, and the register takes the next one
      obtain ⟨hcommit, rfl⟩ := hc
      obtain ⟨hvalid, -⟩ := TlpMuxState.commit_valid hcommit
      have hready := TlpMuxState.ready_of_routed hcommit
      have hlabel := h.labelled _ hvalid
      rw [slot, if_pos hvalid] at horder
      rw [if_pos hcommit, List.filter_cons_of_pos (by simpa using hlabel), List.filter_nil, horder]
      simp [slot, TlpMuxSystem.step, TlpMuxState.step, hready]
    · have hskip : (if x.state.commit then [x.state.inTlpReg x.state.portCyc] else []).filter
          (fun w => decide (port w.tlp = p)) = [] := by
        cases hcommit : x.state.commit with
        | false => rfl
        | true =>
          have hlabel := h.labelled _ (TlpMuxState.commit_valid hcommit).1
          have hne : ¬x.state.portCyc = p := fun he => hc ⟨hcommit, he⟩
          simp [hlabel, hne]
      have hready := TlpMuxState.ready_of_not_routed hc
      rw [hskip, List.append_nil]
      cases hv : x.state.inTlpValidReg p with
      | false =>
        rw [slot, hv, if_neg Bool.false_ne_true, List.append_nil] at horder
        rw [horder]
        simp [slot, TlpMuxSystem.step, TlpMuxState.step, hready, hv]
      | true =>
        rw [slot, hv, if_pos rfl] at horder
        simp [slot, TlpMuxSystem.step, TlpMuxState.step, hready, hv, ← horder]

/-- The multiplexer neither loses, duplicates nor reorders the TLPs of a port. -/
theorem Conserves.run {i : ℕ → TlpMuxInput n α}
    (hport : ∀ t p, (i t).inTlpValid p = true → port ((i t).inTlp p).tlp = p) (h : Conserves port x)
    (t : ℕ) : Conserves port (x.run i t) := by
  induction t with
  | zero => exact h
  | succ t ih => exact ih.step (hport t)

end TlpMuxSystem

/-! ### What the multiplexer holds -/

namespace TlpMuxState

/-- The weight of the beats in the output registers and in the input registers. -/
def load (f : MuxTlp α → ℕ) (s : TlpMuxState n α) : ℕ :=
  (s.out.pending.map f).sum + ∑ p, if s.inTlpValidReg p then f (s.inTlpReg p) else 0

variable {s : TlpMuxState n α} {i : TlpMuxInput n α}

lemma load_mono {f g : MuxTlp α → ℕ} (hfg : ∀ b, f b ≤ g b) : s.load f ≤ s.load g := by
  refine Nat.add_le_add (List.sum_le_sum fun b _ => hfg b) (Finset.sum_le_sum fun p _ => ?_)
  split
  · exact hfg _
  · exact le_rfl

lemma slot_load (f : MuxTlp α → ℕ) (p : Fin n) :
    (if (s.step i).inTlpValidReg p then f ((s.step i).inTlpReg p) else 0) +
        (if s.commit = true ∧ s.portCyc = p then f (s.inTlpReg p) else 0) =
      (if s.inTlpValidReg p then f (s.inTlpReg p) else 0) +
        if i.inTlpValid p && s.inTlpReady p then f (i.inTlp p) else 0 := by
  by_cases hc : s.commit = true ∧ s.portCyc = p
  · obtain ⟨hcommit, rfl⟩ := hc
    obtain ⟨hvalid, -⟩ := commit_valid hcommit
    have hready := ready_of_routed hcommit
    simp only [step, hready, hvalid, hcommit, and_self, if_true, Bool.and_true]
    exact Nat.add_comm _ _
  · have hready := ready_of_not_routed hc
    rw [if_neg hc, Nat.add_zero]
    cases hv : s.inTlpValidReg p <;> simp [step, hready, hv]

/-- Beats come in at the ports and leave at the output, and none else. -/
theorem load_step (f : MuxTlp α → ℕ) (h : s.out.WellFormed) :
    (s.step i).load f + (if s.out.outValidReg && i.outTlpReady then f s.out.outReg else 0) =
      s.load f + ∑ p, if i.inTlpValid p && s.inTlpReady p then f (i.inTlp p) else 0 := by
  have hpend := @SkidBuffer.step_pending _ s.out s.commit i.outTlpReady (s.inTlpReg s.portCyc) h
    fun hc => (commit_valid hc).2
  have hout := congrArg (fun l => (l.map f).sum) hpend
  simp only [List.map_append, List.sum_append, apply_ite (List.map f), apply_ite List.sum, List.map_cons,
    List.map_nil, List.sum_cons, List.sum_nil, Nat.add_zero] at hout
  have hslots := Finset.sum_congr rfl fun p (_ : p ∈ Finset.univ) => slot_load (s := s) (i := i) f p
  rw [Finset.sum_add_distrib, Finset.sum_add_distrib] at hslots
  have hcommit : (∑ p, if s.commit = true ∧ s.portCyc = p then f (s.inTlpReg p) else 0) =
      if s.commit then f (s.inTlpReg s.portCyc) else 0 := by
    cases s.commit <;> simp
  rw [hcommit] at hslots
  unfold load
  have hstep : (s.step i).out = s.out.step s.commit (s.inTlpReg s.portCyc) i.outTlpReady := rfl
  rw [hstep]
  omega

end TlpMuxState

end FpgaPcie
