import FpgaPcie.Lib.Progress
import FpgaPcie.Rtl.DmaRdTrack
import FpgaPcie.Rtl.RxRdIrq
import FpgaPcie.Rtl.SgdmaRd

/-!
# Write descriptors of the AXI mode

`dma_if_pcie_axi_rd` and `sgdma_if_pcie_axi_rd` give `axi_dma_wr` a descriptor for each start. The
valid flag has room for one descriptor, whose length and address are those that the host registers
show when `axi_dma_wr` takes it.
-/

namespace FpgaPcie

/-- The start, the length and the card address in the host registers, and `s_axis_write_desc_ready`. -/
structure DescCycle where
  start : Bool
  length : ℕ
  ramaddr : ℕ
  ready : Bool

/-- The length and the card address of a descriptor. -/
def DescCycle.desc (e : DescCycle) : ℕ × ℕ := (e.length, e.ramaddr)

structure WriteDesc where
  sAxisWriteDescValid : Bool
  descRdReqStartReg : Bool

namespace WriteDesc

def reset : WriteDesc := ⟨false, false⟩

variable (s : WriteDesc) (e : DescCycle)

def clock : WriteDesc where
  sAxisWriteDescValid :=
    if s.sAxisWriteDescValid && e.ready then false
    else if e.start && !s.descRdReqStartReg then true
    else s.sAxisWriteDescValid
  descRdReqStartReg := e.start

def run (env : ℕ → DescCycle) : ℕ → WriteDesc
  | 0 => reset
  | t + 1 => (run env t).clock (env t)

end WriteDesc

variable {c : RdConfig}

/-! ### Block mode -/

/-- `m_axis_tlp_tready` of the engine is `s_axis_write_data_tready`. -/
structure AxiRdInput (c : RdConfig) extends RdInput c where
  descTxRdReqRamaddr : ℕ
  sAxisWriteDescReady : Bool

def AxiRdInput.desc (i : AxiRdInput c) : DescCycle where
  start := i.descTxRdReqStart
  length := i.descTxRdReqLength
  ramaddr := i.descTxRdReqRamaddr
  ready := i.sAxisWriteDescReady

/-- `dma_if_pcie_axi_rd` without `axi_dma_wr`. -/
structure AxiRd (c : RdConfig) where
  writeDesc : WriteDesc
  pcieAxisRd : RdState c

namespace AxiRd

def clock (s : AxiRd c) (i : AxiRdInput c) : AxiRd c where
  writeDesc := s.writeDesc.clock i.desc
  pcieAxisRd := rdStep s.pcieAxisRd i.toRdInput

def run (i : ℕ → AxiRdInput c) : ℕ → AxiRd c
  | 0 => ⟨.reset, rdReset c⟩
  | t + 1 => (run i t).clock (i t)

lemma run_writeDesc (i : ℕ → AxiRdInput c) (t : ℕ) :
    (run i t).writeDesc = WriteDesc.run (fun t => (i t).desc) t := by
  induction t with
  | zero => rfl
  | succ t ih => rw [run, clock, ih, WriteDesc.run]

end AxiRd

/-! ### Scatter-gather mode -/

structure SgAxiRdInput (c : RdConfig) extends SgRdInput c where
  descRdReqSgdmaLength : ℕ
  descRdReqSgdmaRamaddr : ℕ
  sAxisWriteDescReady : Bool

def SgAxiRdInput.desc (i : SgAxiRdInput c) : DescCycle where
  start := i.descRdReqSgdmaStart
  length := i.descRdReqSgdmaLength
  ramaddr := i.descRdReqSgdmaRamaddr
  ready := i.sAxisWriteDescReady

/-- `sgdma_if_pcie_axi_rd` without `axi_dma_wr`. -/
structure SgAxiRd (c : RdConfig) where
  writeDesc : WriteDesc
  uSgdmaIfPcieAxisRd : SgRdState c

namespace SgAxiRd

def clock (s : SgAxiRd c) (i : SgAxiRdInput c) : SgAxiRd c where
  writeDesc := s.writeDesc.clock i.desc
  uSgdmaIfPcieAxisRd := s.uSgdmaIfPcieAxisRd.step i.toSgRdInput

def run (i : ℕ → SgAxiRdInput c) : ℕ → SgAxiRd c
  | 0 => ⟨.reset, .reset c⟩
  | t + 1 => (run i t).clock (i t)

lemma run_writeDesc (i : ℕ → SgAxiRdInput c) (t : ℕ) :
    (run i t).writeDesc = WriteDesc.run (fun t => (i t).desc) t := by
  induction t with
  | zero => rfl
  | succ t ih => rw [run, clock, ih, WriteDesc.run]

end SgAxiRd

/-! ### Starts and handshakes -/

/-- A start in this cycle: the start register rises. -/
def startEdge (env : ℕ → DescCycle) : ℕ → Bool
  | 0 => (env 0).start
  | t + 1 => (env (t + 1)).start && !(env t).start

/-- What the registers held at the starts before cycle `t`. -/
def programmed (env : ℕ → DescCycle) (t : ℕ) : List (ℕ × ℕ) :=
  ((List.range t).filter (startEdge env)).map fun u => (env u).desc

/-- The descriptors that `axi_dma_wr` has taken before cycle `t`. -/
def launched (valid : ℕ → Bool) (env : ℕ → DescCycle) (t : ℕ) : List (ℕ × ℕ) :=
  ((List.range t).filter fun u => valid u && (env u).ready).map fun u => (env u).desc

/-- Each start gives one descriptor, with its own length and address and in order; the last one may still wait
behind the valid flag, as long as `axi_dma_wr` is not ready. -/
structure LaunchesOk (valid : ℕ → Bool) (env : ℕ → DescCycle) : Prop where
  inOrder : ∀ t, launched valid env t <+: programmed env t
  once : ∀ t, (programmed env t).length = (launched valid env t).length + (valid t).toNat
  granted : (∀ t, ∃ u, t ≤ u ∧ (env u).ready = true) →
    ∀ t, ∃ u, programmed env t <+: launched valid env u

/-- No start finds the descriptor of an earlier one waiting, and the registers keep what they held at
the start until `axi_dma_wr` takes the descriptor. -/
structure StartsClear (valid : ℕ → Bool) (env : ℕ → DescCycle) : Prop where
  free : ∀ t, startEdge env t = true → valid t = false
  kept : ∀ t, valid t = true → (env t).ready = true → ∀ d ∈ (programmed env t).getLast?, (env t).desc = d

section Launches

variable {env : ℕ → DescCycle} {valid : ℕ → Bool}

lemma programmed_succ (t : ℕ) :
    programmed env (t + 1) = programmed env t ++ if startEdge env t then [(env t).desc] else [] := by
  rw [programmed, List.range_succ, List.filter_append, List.map_append]
  cases h : startEdge env t <;> simp [programmed, h]

lemma launched_succ (t : ℕ) : launched valid env (t + 1) =
    launched valid env t ++ if valid t && (env t).ready then [(env t).desc] else [] := by
  rw [launched, List.range_succ, List.filter_append, List.map_append]
  cases h : valid t && (env t).ready <;> simp [launched, h]

lemma programmed_mono {t u : ℕ} (htu : t ≤ u) : programmed env t <+: programmed env u := by
  induction htu with
  | refl => exact List.prefix_rfl
  | step _ ih =>
    rw [programmed_succ]
    exact ih.trans (List.prefix_append _ _)

/-- `desc_rd_req_start_reg` is the start of the cycle before. -/
lemma WriteDesc.edge_eq (t : ℕ) :
    ((env t).start && !(WriteDesc.run env t).descRdReqStartReg) = startEdge env t := by
  cases t with
  | zero => exact Bool.and_true _
  | succ t => rfl

lemma WriteDesc.valid_succ (t : ℕ) : (WriteDesc.run env (t + 1)).sAxisWriteDescValid =
    if (WriteDesc.run env t).sAxisWriteDescValid && (env t).ready then false
    else if startEdge env t then true else (WriteDesc.run env t).sAxisWriteDescValid := by
  rw [WriteDesc.run, WriteDesc.clock, WriteDesc.edge_eq]

/-- While a descriptor waits, a start adds to what is programmed and nothing to what will be launched. -/
lemma LaunchesOk.free (h : LaunchesOk (fun t => (WriteDesc.run env t).sAxisWriteDescValid) env) {t : ℕ}
    (hedge : startEdge env t = true) : (WriteDesc.run env t).sAxisWriteDescValid = false := by
  by_contra hv
  rw [Bool.not_eq_false] at hv
  have hnow := h.once t
  have hnext := h.once (t + 1)
  rw [programmed_succ, launched_succ, WriteDesc.valid_succ, hedge, hv] at hnext
  rw [hv] at hnow
  cases hr : (env t).ready with
  | false => simp [hr] at hnext hnow; omega
  | true => simp [hr] at hnext hnow; omega

lemma LaunchesOk.kept (h : LaunchesOk (fun t => (WriteDesc.run env t).sAxisWriteDescValid) env) {t : ℕ}
    (hv : (WriteDesc.run env t).sAxisWriteDescValid = true) (hr : (env t).ready = true) :
    programmed env t = launched (fun t => (WriteDesc.run env t).sAxisWriteDescValid) env t ++ [(env t).desc] := by
  have hedge : startEdge env t = false := by
    by_contra hedge
    rw [h.free (Bool.eq_true_of_not_eq_false hedge)] at hv
    cases hv
  have hbegin := h.inOrder (t + 1)
  have hcount := h.once t
  rw [launched_succ, programmed_succ, hedge] at hbegin
  simp only [hv, hr, Bool.and_self, if_true, Bool.false_eq_true, if_false, List.append_nil] at hbegin
  refine (hbegin.eq_of_length ?_).symm
  rw [hcount, hv]
  simp

lemma StartsClear.waiting (h : StartsClear (fun t => (WriteDesc.run env t).sAxisWriteDescValid) env) (t : ℕ) :
    ∃ w, launched (fun t => (WriteDesc.run env t).sAxisWriteDescValid) env t ++ w = programmed env t ∧
      w.length = (WriteDesc.run env t).sAxisWriteDescValid.toNat := by
  induction t with
  | zero => exact ⟨[], rfl, rfl⟩
  | succ t ih =>
    obtain ⟨w, hw, hlen⟩ := ih
    rw [launched_succ, programmed_succ, WriteDesc.valid_succ, ← hw]
    cases hv : (WriteDesc.run env t).sAxisWriteDescValid with
    | false =>
      have hnil : w = [] := List.length_eq_zero_iff.mp (by rw [hlen, hv]; rfl)
      subst hnil
      cases hedge : startEdge env t with
      | false => exact ⟨[], by simp, by simp⟩
      | true => exact ⟨[(env t).desc], by simp, by simp⟩
    | true =>
      have hedge : startEdge env t = false := by
        by_contra hedge
        have hfree := h.free t (Bool.eq_true_of_not_eq_false hedge)
        rw [hv] at hfree
        cases hfree
      obtain ⟨d, rfl⟩ := List.length_eq_one_iff.mp (show w.length = 1 by rw [hlen, hv]; rfl)
      cases hr : (env t).ready with
      | false => exact ⟨[d], by simp [hedge], by simp [hedge]⟩
      | true =>
        have hd : (env t).desc = d := h.kept t hv hr d (by rw [← hw]; simp)
        exact ⟨[], by simp [hedge, hd], by simp⟩

/-- The valid flag stays until `axi_dma_wr` is ready. -/
lemma WriteDesc.taken (hready : ∀ t, ∃ u, t ≤ u ∧ (env u).ready = true) (t : ℕ) :
    ∃ u, t ≤ u ∧ (WriteDesc.run env u).sAxisWriteDescValid = false := by
  cases hv : (WriteDesc.run env t).sAxisWriteDescValid with
  | false => exact ⟨t, le_rfl, hv⟩
  | true =>
    refine Progress.leadsTo_of_event (P := fun u => (WriteDesc.run env u).sAxisWriteDescValid = true)
      (E := fun u => (env u).ready = true) ?_ ?_ (fun u _ => hready u) t hv
    · intro u hu hnot
      rw [WriteDesc.valid_succ]
      simp [hu, hnot]
    · intro u hu hr
      rw [WriteDesc.valid_succ]
      simp [hu, hr]

theorem launchesOk_iff (env : ℕ → DescCycle) :
    LaunchesOk (fun t => (WriteDesc.run env t).sAxisWriteDescValid) env ↔
      StartsClear (fun t => (WriteDesc.run env t).sAxisWriteDescValid) env := by
  constructor
  · intro h
    refine ⟨fun t => h.free, fun t hv hr d hd => ?_⟩
    rw [h.kept hv hr] at hd
    simpa using hd
  · intro h
    refine ⟨fun t => ?_, fun t => ?_, fun hready t => ?_⟩
    · obtain ⟨w, hw, -⟩ := h.waiting t
      exact ⟨w, hw⟩
    · obtain ⟨w, hw, hlen⟩ := h.waiting t
      rw [← hw, List.length_append, hlen]
    · obtain ⟨u, hu, hv⟩ := WriteDesc.taken hready t
      obtain ⟨w, hw, hlen⟩ := h.waiting u
      have hnil : w = [] := List.length_eq_zero_iff.mp (by rw [hlen, hv]; rfl)
      rw [hnil, List.append_nil] at hw
      exact ⟨u, hw ▸ programmed_mono hu⟩

end Launches

/-- In both modes each start launches its descriptor exactly when none finds another one waiting and the
registers stay until the descriptor is taken. -/
theorem launches_iff (c : RdConfig) :
    (∀ i : ℕ → AxiRdInput c,
      LaunchesOk (fun t => (AxiRd.run i t).writeDesc.sAxisWriteDescValid) (fun t => (i t).desc) ↔
        StartsClear (fun t => (AxiRd.run i t).writeDesc.sAxisWriteDescValid) (fun t => (i t).desc)) ∧
    ∀ i : ℕ → SgAxiRdInput c,
      LaunchesOk (fun t => (SgAxiRd.run i t).writeDesc.sAxisWriteDescValid) (fun t => (i t).desc) ↔
        StartsClear (fun t => (SgAxiRd.run i t).writeDesc.sAxisWriteDescValid) (fun t => (i t).desc) := by
  simp only [AxiRd.run_writeDesc, SgAxiRd.run_writeDesc]
  exact ⟨fun i => launchesOk_iff _, fun i => launchesOk_iff _⟩

/-! ### Registers rewritten while a descriptor waits -/

/-- The inputs of the block mode with the RC interface, on which `dma_rx_rd_irq` counts the data. -/
structure H2cInput (c : RdConfig) extends AxiRdInput c where
  rc : RcBeat
  rcTvalid : Bool
  rcTready : Bool

def H2cInput.rcCycle (i : H2cInput c) : RcCycle where
  beat := i.rc
  tvalid := i.rcTvalid
  tready := i.rcTready
  txRdLength := i.descTxRdReqLength
  txRdStart := i.descTxRdReqStart

/-- Between two starts the done interrupt comes, behind the data of the first transfer. -/
def StartsAfterDone (i : ℕ → H2cInput c) : Prop :=
  ∀ t u, t < u → startEdge (fun t => (i t).desc) t = true → startEdge (fun t => (i t).desc) u = true →
    ∃ v, t < v ∧ v ≤ u ∧ (RcIrq.irq (fun t => (i t).rcCycle) v).txRdIrqReg = true ∧
      (i t).descTxRdReqLength ≤ RcIrq.moved (fun t => (i t).rcCycle) t v

def h2cCpl : RcCpl := ⟨.h2cData, 16, 64⟩

/-- The RC interface: two completions of 64 bytes for the first transfer, one for the second. -/
def rcAnswers : ℕ → RcBeat
  | 5 => ⟨[(0, h2cCpl)], fun _ => 0, by simp⟩
  | 6 => ⟨[(1, h2cCpl)], fun _ => 0, by simp⟩
  | 25 => ⟨[(0, h2cCpl)], fun _ => 0, by simp⟩
  | _ => ⟨[], fun _ => 0, by simp⟩

/-- A transfer of 128 bytes to card address 4032, in two bursts, the second of which the memory
stalls. A transfer to card address 8192 is started behind the interrupt of the first one, and with
its own interrupt the address is set to 12288, before `axi_dma_wr` is ready again in cycle 32. -/
def addressRewritten (t : ℕ) : H2cInput ⟨6, 5, 0, 2, tagWidth_five, payloadSize_two⟩ where
  descTxRdReqStart := t == 0 || t == 20
  descTxRdReqLength := if t < 10 then 128 else 64
  descTxRdReqAddress := 4096
  descTxRdReqRamaddr := if t < 10 then 4032 else if t < 28 then 8192 else 12288
  txRdReqTlpReady := true
  rxCplTlpValid := t == 9 || t == 10 || t == 28
  rxCplTlpHdr := 0
  rxCplTlpData := fun _ => 0
  mAxisTlpTready := t == 15 || t == 31
  sAxisWriteDescReady := decide (t ≤ 1) || decide (32 ≤ t)
  rc := rcAnswers t
  rcTvalid := t == 5 || t == 6 || t == 7 || t == 25 || t == 26
  rcTready := true

lemma addressRewritten_edge {t : ℕ} (h : startEdge (fun t => (addressRewritten t).desc) t = true) :
    t = 0 ∨ t = 20 := by
  cases t with
  | zero => exact .inl rfl
  | succ t =>
    simp only [startEdge, AxiRdInput.desc, addressRewritten, Bool.and_eq_true, Bool.or_eq_true, beq_iff_eq] at h
    omega

lemma addressRewritten_afterDone : StartsAfterDone addressRewritten := by
  intro t u htu ht hu
  have hzero : t = 0 := by
    have := addressRewritten_edge ht
    have := addressRewritten_edge hu
    omega
  have htwenty : u = 20 := by
    have := addressRewritten_edge hu
    omega
  subst hzero htwenty
  exact ⟨8, by decide +kernel, by decide +kernel, by decide +kernel, by decide +kernel⟩

lemma addressRewritten_legal (t : ℕ) :
    (RdTrack.run (fun t => (addressRewritten t).toRdInput) t).Legal (addressRewritten t).toRdInput where
  ready _ := rfl
  answers h := by
    simp only [addressRewritten, Bool.or_eq_true, beq_iff_eq] at h
    obtain (rfl | rfl) | rfl := h
    all_goals decide +kernel

/-- The second descriptor goes to card address 12288. -/
theorem address_rewritten : StartsAfterDone addressRewritten ∧
    (∀ t, (RdTrack.run (fun t => (addressRewritten t).toRdInput) t).Legal (addressRewritten t).toRdInput) ∧
    ¬LaunchesOk (fun t => (AxiRd.run (fun t => (addressRewritten t).toAxiRdInput) t).writeDesc.sAxisWriteDescValid)
      (fun t => (addressRewritten t).desc) := by
  refine ⟨addressRewritten_afterDone, addressRewritten_legal, fun h => ?_⟩
  have hbegin := h.inOrder 33
  revert hbegin
  decide +kernel

end FpgaPcie
