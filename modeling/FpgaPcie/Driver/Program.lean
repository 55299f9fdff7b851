import FpgaPcie.Driver.System

/-!
# The straight lines of the calls

What the invariants of the driver use of the operation lists. The facts are about every suffix of
a list, so they pass from a list to what is left of it.
-/

namespace FpgaPcie

/-- The LENGTH register behind the writes in a list. -/
def lengthAfter : BitVec 32 → List DrvOp → BitVec 32
  | n, [] => n
  | n, .writeReg r v :: ops => lengthAfter (if r = .length then v else n) ops
  | n, .copyFromUser _ :: ops | n, .copyToUser _ :: ops | n, .getSgList :: ops
  | n, .clearFlag :: ops | n, .freeSgBuf :: ops | n, .ret _ :: ops => lengthAfter n ops

/-- A write to a configuration register. -/
def DrvOp.isConfig : DrvOp → Bool
  | .writeReg .start _ | .writeReg .status _ => false
  | .writeReg _ _ => true
  | .copyFromUser _ | .copyToUser _ | .getSgList | .clearFlag | .freeSgBuf | .ret _ => false

/-- The order that the lists of a call keep. -/
structure OpsOk (a : CallArgs) (ops : List DrvOp) : Prop where
  /-- A START is 1, or 2 on a scatter-gather channel. -/
  start : ∀ v rest, .writeReg .start v :: rest <:+ ops → v = 1 ∨ v = 2 ∧ a.chan.isSg = true
  /-- Only configuration registers are written behind the first START. -/
  config : ∀ rest, .writeReg .start 1 :: rest <:+ ops → ∀ op ∈ rest, op.isConfig = true
  /-- A START that begins to move data is the last operation. -/
  arm : ∀ v rest, .writeReg .start v :: rest <:+ ops → a.chan.isSg = false ∨ v = 2 → rest = []
  list : ∀ rest, .getSgList :: rest <:+ ops → rest = [] ∧ a.chan.isSg = true
  ret : ∀ r rest, .ret r :: rest <:+ ops → rest = []
  /-- What is copied is transferred. -/
  copy : ∀ n rest, .copyFromUser n :: rest <:+ ops → .writeReg .start 1 ∈ rest
  /-- Behind the first START come LENGTH and the SDRAM address at most. -/
  loaded : ∀ rest, .writeReg .start 1 :: rest <:+ ops → ∀ r v,
    r ≠ .length → r ≠ .sdramLo → r ≠ .sdramHo → .writeReg r v ∉ rest

section OpsOk

variable {a : CallArgs} {ops rest : List DrvOp} {op : DrvOp}

lemma OpsOk.tail (h : OpsOk a (op :: ops)) : OpsOk a ops where
  start v rest hs := h.start v rest (hs.trans (List.suffix_cons op ops))
  config rest hs := h.config rest (hs.trans (List.suffix_cons op ops))
  arm v rest hs := h.arm v rest (hs.trans (List.suffix_cons op ops))
  list rest hs := h.list rest (hs.trans (List.suffix_cons op ops))
  ret r rest hs := h.ret r rest (hs.trans (List.suffix_cons op ops))
  copy n rest hs := h.copy n rest (hs.trans (List.suffix_cons op ops))
  loaded rest hs := h.loaded rest (hs.trans (List.suffix_cons op ops))

lemma opsOk_nil : OpsOk a [] := by
  constructor <;> simp

lemma opsOk_of_forall
    (h : ∀ op ∈ ops, (∀ v, op ≠ .writeReg .start v) ∧ op ≠ .getSgList ∧ ∀ n, op ≠ .copyFromUser n)
    (hret : ∀ r rest, .ret r :: rest <:+ ops → rest = []) : OpsOk a ops := by
  have hmem : ∀ {op rest}, op :: rest <:+ ops → op ∈ ops := fun hs => hs.subset (by simp)
  exact {
    start := fun v rest hs => absurd rfl ((h _ (hmem hs)).1 v)
    config := fun rest hs => absurd rfl ((h _ (hmem hs)).1 1)
    arm := fun v rest hs => absurd rfl ((h _ (hmem hs)).1 v)
    list := fun rest hs => absurd rfl (h _ (hmem hs)).2.1
    ret := hret
    copy := fun n rest hs => absurd rfl ((h _ (hmem hs)).2.2 n)
    loaded := fun rest hs => absurd rfl ((h _ (hmem hs)).1 1) }

end OpsOk

namespace CallArgs

variable (dmaAddr : BitVec 64) (a : CallArgs)

lemma entry_opsOk : OpsOk a (a.entry dmaAddr) := by
  unfold entry
  cases hc : a.chan with
  | c2hBl =>
    constructor <;> simp +contextual [List.suffix_cons_iff, writeSdramLo, writeSdramHo, writeLength,
      writeAddrLo, writeAddrHo]
  | h2cBl =>
    dsimp only
    split_ifs
    · constructor <;> simp +contextual [List.suffix_cons_iff, writeSdramLo, writeSdramHo,
        writeLength, writeAddrLo, writeAddrHo]
    · exact opsOk_of_forall (by simp) (by simp [List.suffix_cons_iff])
  | c2hSg => constructor <;> simp [List.suffix_cons_iff, hc, Chan.isSg]
  | h2cSg =>
    dsimp only
    split_ifs
    · exact opsOk_of_forall (by simp) (by simp [List.suffix_cons_iff])
    · constructor <;> simp [List.suffix_cons_iff, hc, Chan.isSg]

lemma program_opsOk (hsg : a.chan.isSg = true) (n : ℕ) : OpsOk a (a.program dmaAddr n) := by
  unfold program
  cases hc : a.chan <;> simp only [hc, Chan.isSg, reduceCtorEq] at hsg
  all_goals
    constructor <;> simp +contextual [List.suffix_cons_iff, writeSdramLo, writeSdramHo, writeLength,
      writeAddrLo, writeAddrHo, DrvOp.isConfig, hc, Chan.isSg]

lemma exit_opsOk (e : ℤ) : OpsOk a (a.exit e) := by
  unfold exit
  split_ifs <;> exact opsOk_of_forall (by simp) (by simp [List.suffix_cons_iff])

lemma onStatus_opsOk (s : BitVec 32) : OpsOk a (a.onStatus s) := by
  have hsg : a.chan.isSg = true →
      OpsOk a [.clearFlag, .writeReg .status 0, .writeReg .start 2] := by
    intro h
    constructor <;> simp [List.suffix_cons_iff, h]
  unfold onStatus
  cases hc : a.chan with
  | c2hBl =>
    dsimp only
    split_ifs
    · exact opsOk_of_forall (by simp) (by simp [List.suffix_cons_iff])
    · exact opsOk_nil
  | h2cBl =>
    dsimp only
    split_ifs
    · exact opsOk_of_forall (by simp) (by simp [List.suffix_cons_iff])
    · exact opsOk_nil
  | c2hSg =>
    dsimp only
    split_ifs
    · exact hsg (by rw [hc]; rfl)
    · exact opsOk_of_forall (by simp) (by simp [List.suffix_cons_iff])
    · exact opsOk_nil
  | h2cSg =>
    dsimp only
    split_ifs
    · exact hsg (by rw [hc]; rfl)
    · exact opsOk_of_forall (by simp) (by simp [List.suffix_cons_iff])
    · exact opsOk_nil

/-- A call of a block channel starts, one of a scatter-gather channel builds its list first, and
a refused one returns an error. -/
lemma entry_ops : (.writeReg .start 2 ∉ a.entry dmaAddr) ∧
    (∀ n, .ret (.transferred n) ∉ a.entry dmaAddr) ∧
      (.writeReg .start 1 ∈ a.entry dmaAddr ∨ .getSgList ∈ a.entry dmaAddr ∨
        ∃ e, .ret (.error e) ∈ a.entry dmaAddr) ∧
      (.getSgList ∉ a.entry dmaAddr → (∀ r, .ret r ∉ a.entry dmaAddr) →
        a.chan.isSg = false ∧ ∀ v, lengthAfter v (a.entry dmaAddr) = a.bufsize) := by
  unfold entry
  cases hc : a.chan with
  | c2hBl =>
    simp [writeLength, writeSdramLo, writeSdramHo, writeAddrLo, writeAddrHo, lengthAfter, Chan.isSg]
  | h2cBl =>
    dsimp only
    split_ifs <;> simp [writeLength, writeSdramLo, writeSdramHo, writeAddrLo, writeAddrHo,
      lengthAfter, Chan.isSg]
  | c2hSg => simp
  | h2cSg =>
    dsimp only
    split_ifs <;> simp

lemma program_ops (hsg : a.chan.isSg = true) (n : ℕ) : .writeReg .start 1 ∈ a.program dmaAddr n ∧
    .writeReg .start 2 ∉ a.program dmaAddr n ∧ (∀ r, .ret r ∉ a.program dmaAddr n) ∧
      ∀ v, lengthAfter v (a.program dmaAddr n) = a.bufsize := by
  unfold program
  cases hc : a.chan <;> simp only [hc, Chan.isSg, reduceCtorEq] at hsg <;>
    simp [writeLength, writeSdramLo, writeSdramHo, writeAddrLo, writeAddrHo, lengthAfter]

lemma lengthAfter_onStatus (s v : BitVec 32) : lengthAfter v (a.onStatus s) = v := by
  unfold onStatus
  cases a.chan <;> dsimp only <;> split_ifs <;> simp [lengthAfter]

lemma onStatus_notStarted (s : BitVec 32) :
    .writeReg .start 1 ∉ a.onStatus s ∧ .getSgList ∉ a.onStatus s := by
  unfold onStatus
  cases a.chan <;> dsimp only <;> split_ifs <;> simp

variable {a} {s n : BitVec 32}

lemma onStatus_clears (h : a.onStatus s ≠ []) : s ≠ 0 ∧ .writeReg .status 0 ∈ a.onStatus s := by
  unfold onStatus at h ⊢
  cases hc : a.chan <;> simp only [hc] at h ⊢ <;> split_ifs at h ⊢ <;> simp_all
  rintro rfl
  simp at *

lemma onStatus_second (h : .writeReg .start 2 ∈ a.onStatus s) :
    a.chan.isSg = true ∧ s = 1 ∧ .writeReg .status 0 ∈ a.onStatus s ∧
      ∀ r, .ret r ∉ a.onStatus s := by
  unfold onStatus at h ⊢
  cases hc : a.chan <;> simp only [hc] at h ⊢ <;> split_ifs at h ⊢ <;> simp_all [Chan.isSg]

lemma onStatus_transferred (h : .ret (.transferred n) ∈ a.onStatus s) :
    s ≠ 0 ∧ (a.chan.isSg = true → s = 2) := by
  unfold onStatus at h
  cases hc : a.chan <;> simp only [hc] at h <;> split_ifs at h <;> simp_all [Chan.isSg]
  · rintro rfl
    simp at *

lemma onStatus_freeSgBuf (h : .freeSgBuf ∈ a.onStatus s) : a.chan.isSg = true ∧ s = 2 := by
  unfold onStatus at h
  cases hc : a.chan <;> simp only [hc] at h <;> split_ifs at h <;> simp_all [Chan.isSg]

lemma exit_freeSgBuf {e : ℤ} (h : .freeSgBuf ∈ a.exit e) : a.chan.isSg = true := by
  unfold exit at h
  split_ifs at h with hsg
  · exact hsg
  · simp at h

/-- `block_c2h` copies its data out behind a status word. -/
lemma onStatus_copyToUser {m : BitVec 32} (h : .copyToUser m ∈ a.onStatus s) :
    a.chan = .c2hBl ∧ s ≠ 0 := by
  refine ⟨?_, (onStatus_clears (List.ne_nil_of_mem h)).1⟩
  unfold onStatus at h
  cases hc : a.chan <;> simp only [hc] at h <;> split_ifs at h <;> simp_all

lemma copyToUser_notMem_exit (m : BitVec 32) (e : ℤ) : .copyToUser m ∉ a.exit e := by
  unfold exit
  split_ifs <;> simp

variable (dmaAddr : BitVec 64) (a)

lemma copyToUser_notMem (m : BitVec 32) (n : ℕ) :
    .copyToUser m ∉ a.entry dmaAddr ∧ .copyToUser m ∉ a.program dmaAddr n := by
  constructor
  · unfold entry
    cases a.chan <;> dsimp only <;> (try split_ifs) <;>
      simp [writeLength, writeSdramLo, writeSdramHo, writeAddrLo, writeAddrHo]
  · unfold program
    cases a.chan <;> simp [writeLength, writeSdramLo, writeSdramHo, writeAddrLo, writeAddrHo]

lemma freeSgBuf_notMem (n : ℕ) :
    .freeSgBuf ∉ a.entry dmaAddr ∧ .freeSgBuf ∉ a.program dmaAddr n := by
  constructor
  · unfold entry
    cases a.chan <;> dsimp only <;> (try split_ifs) <;>
      simp [writeLength, writeSdramLo, writeSdramHo, writeAddrLo, writeAddrHo]
  · unfold program
    cases a.chan <;> simp [writeLength, writeSdramLo, writeSdramHo, writeAddrLo, writeAddrHo]

end CallArgs

lemma OpsOk.exec {cl : Call} {op : DrvOp} {ops : List DrvOp} {answer : Option ℕ}
    {d : BitVec 64} (h : OpsOk cl.args (op :: ops)) :
    OpsOk cl.args (cl.exec d op answer ops).pc.ops := by
  cases op with
  | copyFromUser n =>
    cases answer with
    | none =>
      refine opsOk_of_forall (fun op hop => ?_) fun r rest hs => ?_
      · obtain rfl := List.mem_singleton.mp hop
        simp
      · have hs' : DrvOp.ret r :: rest <:+ [.ret (.error (-efault))] := hs
        simp only [List.suffix_cons_iff, List.suffix_nil, List.cons.injEq, reduceCtorEq,
          or_false] at hs'
        exact hs'.2
    | some m => simpa [Call.exec, CallPc.after] using h.tail
  | getSgList =>
    obtain ⟨rfl, hsg⟩ := h.list ops List.suffix_rfl
    cases answer with
    | none => exact opsOk_nil
    | some n => simpa [Call.exec, CallPc.after] using CallArgs.program_opsOk d cl.args hsg n
  | ret r => exact opsOk_nil
  | _ => simpa [Call.exec, CallPc.after] using h.tail

end FpgaPcie
