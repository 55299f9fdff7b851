import FpgaPcie.Driver.Call

/-!
# A scatter list that is refused

`sg_c2h` and `sg_h2c` hand the user buffer to `get_sg_list`, which answers NULL for every failure. The calls do
not test for it: the only failing size that they refuse themselves is the zero of `sg_h2c`.
-/

namespace FpgaPcie

section Refused

variable {k : SgKernel} {sgBuf : Option CoherentBuffer} {userdata length : BitVec 64}
  {dir : DmaDataDirection}

/-- `get_sg_list` returns a descriptor exactly when nothing fails. -/
theorem getSgList_isSome_iff :
    (getSgList k sgBuf userdata length dir).2.isSome = true ↔ SgAccepted k sgBuf userdata length := by
  constructor
  · intro h
    obtain ⟨m, hm⟩ := Option.isSome_iff_exists.mp h
    exact sgAccepted_of_some hm
  · intro h
    rw [h.eq]
    rfl

lemma getSgList_eq_none (h : ¬SgAccepted k sgBuf userdata length) :
    (getSgList k sgBuf userdata length dir).2 = none := by
  rw [← Option.not_isSome_iff_eq_none]
  exact fun hsome => h (getSgList_isSome_iff.mp hsome)

end Refused

/-- The direction of the DMA mapping. -/
def Chan.dir : Chan → DmaDataDirection
  | .c2hBl | .c2hSg => .fromDevice
  | .h2cBl | .h2cSg => .toDevice

/-- A scatter-gather call: the user buffer, the list buffer of the channel and what the kernel answers to
`get_sg_list`. -/
structure SgCall where
  args : CallArgs
  buffer : BitVec 64
  sgBuf : Option CoherentBuffer
  kernel : SgKernel

namespace SgCall

variable (x : SgCall)

/-- What `get_sg_list` answers; the size is an `unsigned int`. -/
def answer : Option ℕ :=
  (getSgList x.kernel x.sgBuf x.buffer (x.args.bufsize.setWidth 64) x.args.chan.dir).2.map
    FdevSgdma.mappedNents

/-- Every allocation, the pinning and the mapping succeed for a size and an address that are accepted. -/
def Accepted : Prop := SgAccepted x.kernel x.sgBuf x.buffer (x.args.bufsize.setWidth 64)

/-- The runs of the call in which `get_sg_list` answers what it returns. -/
inductive Runs (dmaAddr : BitVec 64) : List DrvOp → CallPc → Prop
  | enter : Runs dmaAddr [] (.ofOps (x.args.entry dmaAddr))
  | exec {trace : List DrvOp} {op : DrvOp} {ops : List DrvOp} (answer : Option ℕ)
      (hanswer : op = .getSgList → answer = x.answer) : Runs dmaAddr trace (.run (op :: ops)) →
      Runs dmaAddr (trace ++ [op]) (.after dmaAddr x.args op answer ops)
  | step {trace : List DrvOp} {pc pc' : CallPc} (e : CallEvent) (he : ∀ answer, e ≠ .exec answer) :
      Runs dmaAddr trace pc → pc.step dmaAddr x.args e = some pc' → Runs dmaAddr trace pc'

/-- The call ends with an error, and has neither used a NULL pointer nor written a register. -/
structure FailsCleanly (dmaAddr : BitVec 64) : Prop where
  returns : ∃ trace e, x.Runs dmaAddr trace (.returned (.error e))
  safe : ∀ trace pc, x.Runs dmaAddr trace pc → pc ≠ .oops ∧ pc ≠ .waiting ∧
    (∀ r v, .writeReg r v ∉ trace) ∧ ∀ r, pc = .returned r → ∃ e, r = .error e ∧ e < 0

variable {x} {dmaAddr : BitVec 64}

lemma answer_eq_none (h : ¬x.Accepted) : x.answer = none := by
  rw [answer, getSgList_eq_none h]
  rfl

/-- The whole of a call that is refused at once. -/
lemma Runs.refused (hentry : x.args.entry dmaAddr = [.ret (.error (-eperm))]) {trace : List DrvOp}
    {pc : CallPc} (h : x.Runs dmaAddr trace pc) :
    trace = [] ∧ pc = .run [.ret (.error (-eperm))] ∨
      trace = [.ret (.error (-eperm))] ∧ pc = .returned (.error (-eperm)) := by
  induction h with
  | enter => exact .inl ⟨rfl, by rw [hentry]; rfl⟩
  | exec answer hanswer _ ih =>
    rcases ih with ⟨rfl, hpc⟩ | ⟨-, hpc⟩
    · cases hpc
      exact .inr ⟨rfl, rfl⟩
    · cases hpc
  | step e he _ hstep ih =>
    rcases ih with ⟨-, rfl⟩ | ⟨-, rfl⟩
    · cases e with
      | exec answer => exact absurd rfl (he answer)
      | _ => cases hstep
    · cases e <;> cases hstep

/-- A zero size is refused by `sg_h2c` itself. -/
theorem failsCleanly_of_zero (hchan : x.args.chan = .h2cSg) (hzero : x.args.bufsize = 0) :
    x.FailsCleanly dmaAddr := by
  have hentry : x.args.entry dmaAddr = [.ret (.error (-eperm))] := by
    rw [CallArgs.entry, hchan, hzero]
    rfl
  have henter : x.Runs dmaAddr [] (.run [.ret (.error (-eperm))]) := by
    have h := @Runs.enter x dmaAddr
    rwa [hentry] at h
  refine ⟨⟨_, -eperm, henter.exec none (by intro h; cases h)⟩, fun trace pc h => ?_⟩
  rcases h.refused hentry with ⟨rfl, rfl⟩ | ⟨rfl, rfl⟩
  · exact ⟨nofun, nofun, by simp, nofun⟩
  · refine ⟨nofun, nofun, by simp, fun r hr => ?_⟩
    cases hr
    exact ⟨_, rfl, by decide⟩

/-- Otherwise the NULL pointer is used. -/
theorem oops_of_refused (hsg : x.args.chan.isSg = true) (h : ¬x.Accepted)
    (hsize : ¬(x.args.chan = .h2cSg ∧ x.args.bufsize = 0)) : x.Runs dmaAddr [.getSgList] .oops := by
  have hentry : x.args.entry dmaAddr = [.getSgList] := by
    unfold CallArgs.entry
    cases hc : x.args.chan with
    | c2hBl => simp [hc, Chan.isSg] at hsg
    | h2cBl => simp [hc, Chan.isSg] at hsg
    | c2hSg => rfl
    | h2cSg => exact if_neg fun hz => hsize ⟨hc, hz⟩
  have henter : x.Runs dmaAddr [] (.run [.getSgList]) := by
    have h := @Runs.enter x dmaAddr
    rwa [hentry] at h
  exact henter.exec none fun _ => (answer_eq_none h).symm

/-- A scatter-gather call fails cleanly when `get_sg_list` does exactly for the zero size of `sg_h2c`. -/
theorem failure_clean_iff (x : SgCall) (dmaAddr : BitVec 64) (hsg : x.args.chan.isSg = true) :
    (¬x.Accepted → x.FailsCleanly dmaAddr) ↔
      x.Accepted ∨ x.args.chan = .h2cSg ∧ x.args.bufsize = 0 := by
  constructor
  · intro h
    by_contra hnot
    rw [not_or] at hnot
    have hbad := (h hnot.1).safe _ _ (oops_of_refused hsg hnot.1 hnot.2)
    exact hbad.1 rfl
  · rintro (hacc | ⟨hchan, hzero⟩) hrefused
    · exact absurd hacc hrefused
    · exact failsCleanly_of_zero hchan hzero

/-- Nothing to send. -/
theorem failure_clean_zero : SgCall.FailsCleanly
    ⟨⟨.h2cSg, 0, 0⟩, 0x7000, some ⟨0x1000, 8192⟩, unmergedKernel 1⟩ 0x1000 :=
  (failure_clean_iff ⟨⟨.h2cSg, 0, 0⟩, 0x7000, some ⟨0x1000, 8192⟩, unmergedKernel 1⟩ 0x1000 rfl).mpr
    (.inr ⟨rfl, rfl⟩) fun h => h.length_ne rfl

/-- A user buffer that is not page-aligned takes `sg_c2h` down. -/
theorem unaligned_oops : ¬(¬SgCall.Accepted
      ⟨⟨.c2hSg, 100, 0⟩, 0x7004, some ⟨0x1000, 8192⟩, unmergedKernel 1⟩ →
    SgCall.FailsCleanly ⟨⟨.c2hSg, 100, 0⟩, 0x7004, some ⟨0x1000, 8192⟩, unmergedKernel 1⟩ 0x1000) := by
  intro h
  have hrefused : ¬SgCall.Accepted
      ⟨⟨.c2hSg, 100, 0⟩, 0x7004, some ⟨0x1000, 8192⟩, unmergedKernel 1⟩ :=
    fun hacc => absurd hacc.aligned (by decide)
  exact ((h hrefused).safe _ _ (oops_of_refused rfl hrefused (by decide))).1 rfl

end SgCall

end FpgaPcie
