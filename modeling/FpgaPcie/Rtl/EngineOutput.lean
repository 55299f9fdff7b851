import FpgaPcie.Rtl.DmaRdStep
import FpgaPcie.Rtl.DmaWrRun
import FpgaPcie.Rtl.OutFifoRuns

/-!
# The output FIFOs of both DMA engines

Both engines stop their producer with the half-full flag, which is a register, and the enable behind it is
one more register: `cpld_data_fifo_rd_en_reg` on the read side, `s_axis_tlp_tready_reg` on the write side.
The free half of the FIFO takes the beats that are on their way, so no beat is dropped, whatever the inputs
do and whenever the engine is reset.
-/

namespace FpgaPcie

section Read

variable {c : RdConfig}

/-- One clock edge with the reset up. -/
def RdState.rstStep (s : RdState c) (i : RdInput c) : RdState c :=
  { rdReset c with
    out := s.out.rstStep outputFifoAddrWidthRd s.emit (s.newBeat i) i.mAxisTlpTready
      ⟨fun _ => 0, fun _ => false, false⟩ }

variable (rst : ℕ → Bool) (i : ℕ → RdInput c)

/-- The states of the read engine, with a reset in the cycles `rst`. -/
def rdRstRun : ℕ → RdState c
  | 0 => rdReset c
  | t + 1 => if rst t then (rdRstRun t).rstStep (i t) else rdStep (rdRstRun t) (i t)

/-- What the output FIFO of the read engine sees. -/
def rdOutCycle (t : ℕ) : OutCycle (AxisBeat c.busBytes) where
  rst := rst t
  validInit := (rdRstRun rst i t).emit
  init := (rdRstRun rst i t).newBeat (i t)
  ready := (i t).mAxisTlpTready

lemma rdRstRun_eq (t : ℕ) : rdRstRun (fun _ => false) i t = rdRun (rdReset c) i t := by
  induction t with
  | zero => rfl
  | succ t ih => rw [rdRstRun, rdRun, ih, if_neg Bool.false_ne_true]

variable {rst i}

lemma OutRoom.of_cleared {s : RdState c} (hout : s.out.Cleared)
    (hen : ∀ tag, s.tr.cpldDataFifoRdEnReg tag = false) : OutRoom s [] where
  stores := hout.stores
  length_le := Nat.zero_le _
  not_half _ := Nat.zero_le _
  rdEn tag ht := absurd ht (by simp [hen tag])

theorem rdRstRun_room (t : ℕ) : ∃ q, OutRoom (rdRstRun rst i t) q := by
  induction t with
  | zero => exact ⟨[], .of_cleared (OutFifo.reset_cleared _) fun _ => rfl⟩
  | succ t ih =>
    obtain ⟨q, hq⟩ := ih
    rw [rdRstRun]
    split_ifs
    · exact ⟨[], .of_cleared (OutFifo.rstStep_cleared _ _ _ _ _) fun _ => rfl⟩
    · exact ⟨_, hq.step⟩

lemma rdRstRun_clocked :
    OutFifo.Clocked outputFifoAddrWidthRd (fun t => (rdRstRun rst i t).out) (rdOutCycle rst i) where
  start := OutFifo.reset_cleared _
  rst t h := by
    have hrst : rst t = true := h
    rw [rdRstRun, if_pos hrst]
    exact OutFifo.rstStep_cleared _ _ _ _ _
  step t h := by
    have hrst : rst t = false := h
    rw [rdRstRun, hrst]
    rfl

lemma rdRstRun_free (t : ℕ) (q : List (AxisBeat c.busBytes))
    (hq : (rdRstRun rst i t).out.Stores outputFifoAddrWidthRd q) (he : (rdRstRun rst i t).emit = true) :
    q.length < 2 ^ outputFifoAddrWidthRd := by
  obtain ⟨q', hroom⟩ := @rdRstRun_room _ rst i t
  have hle := hroom.rdEn _ (rdEn_of_emit he).2.1
  rw [hq.length_eq hroom.stores, outputFifoAddrWidthRd]
  omega

end Read

section Write

variable {c : WrConfig}

/-- One clock edge with the reset up. The beat in the output register is not reset. -/
def WrState.rstStep (s : WrState c) (i : WrInput c) : WrState c :=
  { WrState.reset c with
    out := s.out.rstStep outputFifoAddrWidthWr (s.validInit i) (s.wrBeatInit i) i.txWrReqTlpReady
      (s.step i).out.outReg }

variable (rst : ℕ → Bool) (i : ℕ → WrInput c)

/-- The states of the write engine, with a reset in the cycles `rst`. -/
def wrRstRun : ℕ → WrState c
  | 0 => .reset c
  | t + 1 => if rst t then (wrRstRun t).rstStep (i t) else (wrRstRun t).step (i t)

/-- What the output FIFO of the write engine sees. -/
def wrOutCycle (t : ℕ) : OutCycle (WrBeat c) where
  rst := rst t
  validInit := (wrRstRun rst i t).validInit (i t)
  init := (wrRstRun rst i t).wrBeatInit (i t)
  ready := (i t).txWrReqTlpReady

lemma wrRstRun_eq (t : ℕ) : wrRstRun (fun _ => false) i t = ((WrSystem.fresh (.reset c)).run i t).engine := by
  induction t with
  | zero => rfl
  | succ t ih =>
    rw [wrRstRun, if_neg Bool.false_ne_true, ih]
    rfl

variable {rst i}

lemma WrFifo.of_cleared {s : WrState c} (hout : s.out.Cleared) : WrFifo s [] where
  stores := hout.stores
  length_le := Nat.zero_le _
  not_half _ := Nat.zero_le _
  tready _ := Nat.zero_le _

theorem wrRstRun_room (t : ℕ) : ∃ q, WrFifo (wrRstRun rst i t) q := by
  induction t with
  | zero => exact ⟨[], .of_cleared (OutFifo.reset_cleared _)⟩
  | succ t ih =>
    obtain ⟨q, hq⟩ := ih
    rw [wrRstRun]
    split_ifs
    · exact ⟨[], .of_cleared (OutFifo.rstStep_cleared _ _ _ _ _)⟩
    · exact ⟨_, hq.step (i t)⟩

lemma wrRstRun_clocked :
    OutFifo.Clocked outputFifoAddrWidthWr (fun t => (wrRstRun rst i t).out) (wrOutCycle rst i) where
  start := OutFifo.reset_cleared _
  rst t h := by
    have hrst : rst t = true := h
    rw [wrRstRun, if_pos hrst]
    exact OutFifo.rstStep_cleared _ _ _ _ _
  step t h := by
    have hrst : rst t = false := h
    rw [wrRstRun, hrst]
    rfl

lemma wrRstRun_free (t : ℕ) (q : List (WrBeat c))
    (hq : (wrRstRun rst i t).out.Stores outputFifoAddrWidthWr q)
    (hv : (wrRstRun rst i t).validInit (i t) = true) : q.length < 2 ^ outputFifoAddrWidthWr := by
  obtain ⟨q', hroom⟩ := @wrRstRun_room _ rst i t
  rw [hq.length_eq hroom.stores]
  exact hroom.room hv

end Write

/-- Neither engine drops a beat in front of its output FIFO. -/
theorem output_fifos_never_drop {rc : RdConfig} {wc : WrConfig} (rst : ℕ → Bool)
    (i : ℕ → RdInput rc) (j : ℕ → WrInput wc) :
    OutFifo.NeverDrops 6 (fun t => (rdRstRun rst i t).out) (rdOutCycle rst i) ∧
      OutFifo.NeverDrops 5 (fun t => (wrRstRun rst j t).out) (wrOutCycle rst j) :=
  ⟨rdRstRun_clocked.neverDrops rdRstRun_free, wrRstRun_clocked.neverDrops wrRstRun_free⟩

/-- The same in the runs of the read engine and of the write engine after one reset. -/
theorem runs_never_drop {rc : RdConfig} {wc : WrConfig} (i : ℕ → RdInput rc) (j : ℕ → WrInput wc) :
    OutFifo.NeverDrops 6 (fun t => (rdRun (rdReset rc) i t).out)
        (fun t => ⟨false, (rdRun (rdReset rc) i t).emit, (rdRun (rdReset rc) i t).newBeat (i t),
          (i t).mAxisTlpTready⟩) ∧
      OutFifo.NeverDrops 5 (fun t => ((WrSystem.fresh (.reset wc)).run j t).engine.out)
        (fun t => ⟨false, ((WrSystem.fresh (.reset wc)).run j t).engine.validInit (j t),
          ((WrSystem.fresh (.reset wc)).run j t).engine.wrBeatInit (j t), (j t).txWrReqTlpReady⟩) := by
  constructor
  · have h : OutFifo.NeverDrops 6 (fun t => (rdRstRun (fun _ => false) i t).out)
        (fun t => rdOutCycle (fun _ => false) i t) := rdRstRun_clocked.neverDrops rdRstRun_free
    simpa only [rdOutCycle, rdRstRun_eq] using h
  · have h : OutFifo.NeverDrops 5 (fun t => (wrRstRun (fun _ => false) j t).out)
        (fun t => wrOutCycle (fun _ => false) j t) := wrRstRun_clocked.neverDrops wrRstRun_free
    simpa only [wrOutCycle, wrRstRun_eq] using h

end FpgaPcie
