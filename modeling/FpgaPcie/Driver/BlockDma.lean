import FpgaPcie.Driver.Call

/-!
# The size of a block transfer

The coherent buffer of a block channel has `BLOCK_DMA_BUF_SIZE` bytes. A trace of operations
respects it when no copy is longer and each START finds a LENGTH that fits, written in the same
trace.
-/

namespace FpgaPcie

/-- Each START in `ops` finds a LENGTH register that fits; `len` is what has been written to it
before. -/
def StartsFit : Option (BitVec 32) → List DrvOp → Prop
  | _, [] => True
  | _, .writeReg .length n :: ops => StartsFit (some n) ops
  | len, .writeReg .start _ :: ops =>
    (∃ n, len = some n ∧ n.toNat ≤ blockDmaBufSize) ∧ StartsFit len ops
  | len, _ :: ops => StartsFit len ops

/-- The copies of an operation fit the buffer. -/
def DrvOp.CopyFits : DrvOp → Prop
  | .copyFromUser n | .copyToUser n => n.toNat ≤ blockDmaBufSize
  | _ => True

def DrvOp.isStart : DrvOp → Bool
  | .writeReg .start _ => true
  | _ => false

def DrvOp.isCopy : DrvOp → Bool
  | .copyFromUser _ | .copyToUser _ => true
  | _ => false

/-- The call stays within the buffer in each of its runs, and a request that is too large is
refused before the first copy and before the START. -/
structure BlockBound (dmaAddr : BitVec 64) (a : CallArgs) : Prop where
  copies : ∀ trace pc, CallRuns dmaAddr a trace pc → ∀ op ∈ trace, op.CopyFits
  starts : ∀ trace pc, CallRuns dmaAddr a trace pc → StartsFit none trace
  refused : blockDmaBufSize < a.bufsize.toNat → ∀ trace pc, CallRuns dmaAddr a trace pc →
    (∀ op ∈ trace, op.isCopy = false ∧ op.isStart = false) ∧
      ∀ r, pc = .returned r → ∃ e, r = .error e ∧ e < 0

variable {dmaAddr : BitVec 64} {a : CallArgs} {trace ops more : List DrvOp} {pc : CallPc}

lemma startsFit_of_noStart {len : Option (BitVec 32)} (h : ∀ op ∈ ops, op.isStart = false) :
    StartsFit len ops := by
  induction ops generalizing len with
  | nil => trivial
  | cons op ops ih =>
    rw [List.forall_mem_cons] at h
    cases op with
    | writeReg r v => cases r <;> first | exact ih h.2 | exact absurd h.1 (by simp [DrvOp.isStart])
    | _ => exact ih h.2

lemma StartsFit.append {len : Option (BitVec 32)} (hfit : StartsFit len ops)
    (h : ∀ op ∈ more, op.isStart = false) : StartsFit len (ops ++ more) := by
  induction ops generalizing len with
  | nil => exact startsFit_of_noStart h
  | cons op ops ih =>
    cases op with
    | writeReg r v => cases r <;> first | exact ih hfit | exact ⟨hfit.1, ih hfit.2⟩
    | _ => exact ih hfit

lemma StartsFit.left {len : Option (BitVec 32)} (hfit : StartsFit len (ops ++ more)) :
    StartsFit len ops := by
  induction ops generalizing len with
  | nil => trivial
  | cons op ops ih =>
    cases op with
    | writeReg r v => cases r <;> first | exact ih hfit | exact ⟨hfit.1, ih hfit.2⟩
    | _ => exact ih hfit

/-- Every operation a call of at most `BLOCK_DMA_BUF_SIZE` bytes has done or is about to do. -/
structure FitsInv (trace : List DrvOp) (pc : CallPc) : Prop where
  copies : ∀ op ∈ trace ++ pc.ops, op.CopyFits
  starts : StartsFit none (trace ++ pc.ops)

/-- Behind a wait a block call only copies its own size, and does not start again. -/
lemma block_loop_ops (hsg : a.chan.isSg = false) (hsize : a.bufsize.toNat ≤ blockDmaBufSize)
    {e : CallEvent} (he : ∀ answer, e ≠ .exec answer) {pc' : CallPc}
    (h : pc.step dmaAddr a e = some pc') : ∀ op ∈ pc'.ops, op.CopyFits ∧ op.isStart = false := by
  have hexit : ∀ e, ∀ op ∈ a.exit e, op.CopyFits ∧ op.isStart = false := by
    simp [CallArgs.exit, hsg, DrvOp.CopyFits, DrvOp.isStart]
  have hstatus : ∀ s, ∀ op ∈ a.onStatus s, op.CopyFits ∧ op.isStart = false := by
    intro s op hop
    unfold CallArgs.onStatus at hop
    cases hc : a.chan <;> simp only [hc, Chan.isSg, reduceCtorEq] at hop hsg
    all_goals
      split_ifs at hop
      · simp only [List.mem_cons, List.not_mem_nil, or_false] at hop
        rcases hop with rfl | rfl | rfl | rfl <;> simp [DrvOp.CopyFits, DrvOp.isStart, hsize]
      · simp at hop
  cases pc with
  | run ops =>
    cases e with
    | exec answer => exact absurd rfl (he answer)
    | _ => cases ops <;> cases h
  | waiting =>
    cases e with
    | wake =>
      cases h
      simp [CallPc.ops]
    | timeout =>
      cases h
      simpa [CallArgs.onTimeout] using hexit _
    | signal =>
      cases h
      simpa [CallArgs.onSignal] using hexit _
    | _ => cases h
  | woken =>
    cases e with
    | testFlag set =>
      cases h
      cases set <;> simp [CallPc.ops]
    | _ => cases h
  | reading =>
    cases e with
    | readStatus s =>
      cases h
      simpa using hstatus s
    | _ => cases h
  | returned r => cases e <;> cases h
  | oops => cases e <;> cases h

lemma entry_fitsInv (hsg : a.chan.isSg = false) (hsize : a.bufsize.toNat ≤ blockDmaBufSize) :
    FitsInv [] (.ofOps (a.entry dmaAddr)) := by
  constructor
  · intro op hop
    rw [List.nil_append, CallPc.ops_ofOps] at hop
    unfold CallArgs.entry at hop
    cases hc : a.chan <;> simp only [hc, Chan.isSg, reduceCtorEq] at hop hsg
    · simp only [List.mem_cons, List.not_mem_nil, or_false] at hop
      rcases hop with rfl | rfl | rfl | rfl | rfl | rfl <;> trivial
    · split_ifs at hop
      · simp only [List.mem_cons, List.not_mem_nil, or_false] at hop
        rcases hop with rfl | rfl | rfl | rfl | rfl | rfl | rfl <;> first | exact hsize | trivial
      · simp only [List.mem_cons, List.not_mem_nil, or_false] at hop
        rw [hop]
        trivial
  · rw [List.nil_append, CallPc.ops_ofOps]
    unfold CallArgs.entry
    cases hc : a.chan <;> simp only [hc, Chan.isSg, reduceCtorEq] at hsg
    · exact ⟨⟨_, rfl, hsize⟩, trivial⟩
    · dsimp only
      split_ifs
      · exact ⟨⟨_, rfl, hsize⟩, trivial⟩
      · trivial

lemma FitsInv.exec {op : DrvOp} (hsg : a.chan.isSg = false) (answer : Option ℕ)
    (h : FitsInv trace (.run (op :: ops))) :
    FitsInv (trace ++ [op]) (.after dmaAddr a op answer ops) := by
  have hcopies : ∀ x ∈ trace ++ op :: ops, x.CopyFits := h.copies
  have hstarts : StartsFit none (trace ++ op :: ops) := h.starts
  have hdone : trace ++ op :: ops = (trace ++ [op]) ++ ops := by simp
  rw [hdone] at hcopies hstarts
  have hsplit : (CallPc.after dmaAddr a op answer ops).ops = ops ∨
      (CallPc.after dmaAddr a op answer ops).ops = [] ∨
        (CallPc.after dmaAddr a op answer ops).ops = [.ret (.error (-efault))] := by
    cases op with
    | ret r => exact Or.inr (Or.inl rfl)
    | copyFromUser n =>
      cases answer with
      | none => exact Or.inr (Or.inr rfl)
      | some _ => exact Or.inl (CallPc.ops_ofOps ops)
    | getSgList =>
      cases answer with
      | none => exact Or.inr (Or.inl rfl)
      | some nents =>
        left
        have hprogram : a.program dmaAddr nents = [] := by
          cases hc : a.chan <;> simp [hc, Chan.isSg, CallArgs.program] at hsg ⊢
        simp [CallPc.after, hprogram]
    | _ => exact Or.inl (CallPc.ops_ofOps ops)
  rcases hsplit with h' | h' | h'
  · exact ⟨by rwa [h'], by rwa [h']⟩
  · rw [List.forall_mem_append] at hcopies
    constructor
    · rw [h', List.append_nil]
      exact hcopies.1
    · rw [h', List.append_nil]
      exact hstarts.left
  · rw [List.forall_mem_append] at hcopies
    constructor
    · rw [h', List.forall_mem_append]
      exact ⟨hcopies.1, by simp [DrvOp.CopyFits]⟩
    · rw [h']
      exact hstarts.left.append (by simp [DrvOp.isStart])

theorem CallRuns.fitsInv (hsg : a.chan.isSg = false) (hsize : a.bufsize.toNat ≤ blockDmaBufSize)
    (h : CallRuns dmaAddr a trace pc) : FitsInv trace pc := by
  induction h with
  | enter => exact entry_fitsInv hsg hsize
  | exec answer _ ih => exact ih.exec hsg answer
  | step e he _ hstep ih =>
    have hops := block_loop_ops hsg hsize he hstep
    constructor
    · rw [List.forall_mem_append]
      exact ⟨(List.forall_mem_append.mp ih.copies).1, fun op hop => (hops op hop).1⟩
    · exact ih.starts.left.append fun op hop => (hops op hop).2

lemma exists_unbounded_run (hsg : a.chan.isSg = false) (hsize : blockDmaBufSize < a.bufsize.toNat) :
    ∃ trace pc op, CallRuns dmaAddr a trace pc ∧ op ∈ trace ∧
      (op.isCopy = true ∨ op.isStart = true) := by
  have hne : a.bufsize ≠ 0 := by
    rintro h0
    rw [h0] at hsize
    exact absurd hsize (by decide)
  have henter := @CallRuns.enter dmaAddr a
  unfold CallArgs.entry at henter
  cases hc : a.chan <;> simp only [hc, Chan.isSg, reduceCtorEq] at henter hsg
  · have h := (((((henter.exec none).exec none).exec none).exec none).exec none).exec none
    exact ⟨_, _, .writeReg .start 1, h, by simp, Or.inr rfl⟩
  · rw [if_pos hne] at henter
    exact ⟨_, _, .copyFromUser a.bufsize, henter.exec (some 0), by simp, Or.inl rfl⟩

/-- A block call stays within the coherent buffer exactly when its size does. -/
theorem block_bound_iff (hsg : a.chan.isSg = false) :
    BlockBound dmaAddr a ↔ a.bufsize.toNat ≤ blockDmaBufSize := by
  constructor
  · intro h
    by_contra hgt
    obtain ⟨trace, pc, op, hruns, hop, hbad⟩ :=
      @exists_unbounded_run dmaAddr a hsg (Nat.lt_of_not_le hgt)
    have hno := (h.refused (Nat.lt_of_not_le hgt) trace pc hruns).1 op hop
    rcases hbad with hbad | hbad
    · simp [hno.1] at hbad
    · simp [hno.2] at hbad
  · intro hsize
    refine ⟨fun trace pc h op hop => ?_, fun trace pc h => ?_, fun hlt => absurd hsize (by omega)⟩
    · exact (h.fitsInv hsg hsize).copies op (List.mem_append_left _ hop)
    · exact (h.fitsInv hsg hsize).starts.left

theorem block_bound_full : BlockBound 0x10000 ⟨.h2cBl, 0x400000, 0⟩ :=
  (@block_bound_iff 0x10000 ⟨.h2cBl, 0x400000, 0⟩ rfl).mpr (by decide)

/-- One byte too much: the START is written with a LENGTH that the buffer does not have. -/
theorem block_start_too_long :
    ∃ trace, CallRuns 0x10000 ⟨.c2hBl, 0x400001, 0⟩ trace .waiting ∧ ¬StartsFit none trace := by
  have h := ((((((@CallRuns.enter 0x10000 ⟨.c2hBl, 0x400001, 0⟩).exec none).exec none).exec
    none).exec none).exec none).exec none
  refine ⟨_, h, fun hfit => ?_⟩
  obtain ⟨⟨n, hn, hle⟩, -⟩ := hfit
  cases hn
  exact absurd hle (by decide)

end FpgaPcie
