import FpgaPcie.Driver.Program
import FpgaPcie.Driver.Transfer

/-!
# What holds of a call while it has its channel

One invariant for each call, kept by its own steps, by the device and by the handler, as long as
one call at a time is active on a channel and the channel is at rest when it starts.
-/

namespace FpgaPcie

namespace Call

variable (cl : Call)

/-- The START of the call is still to come. -/
def NotStarted : Prop := .writeReg .start 1 ∈ cl.pc.ops ∨ .getSgList ∈ cl.pc.ops

/-- The call goes on to its wait, or is in its wait loop. -/
structure Loading : Prop where
  active : cl.pc.active = true
  list : .getSgList ∉ cl.pc.ops
  ret : ∀ r, .ret r ∉ cl.pc.ops

/-- The transfer of the call has been started, and the call does not give it up. -/
structure Started : Prop where
  active : cl.pc.active = true
  started : ¬cl.NotStarted
  error : ∀ e, .ret (.error e) ∉ cl.pc.ops

/-- The call returns its size, or has returned it. -/
def Succeeds : Prop :=
  ∃ n, .ret (.transferred n) ∈ cl.pc.ops ∨ cl.pc = .returned (.transferred n)

end Call

/-- Call `id` and its channel. -/
structure CallInv (x : ChanState) (id : ℕ) (cl : Call) : Prop where
  ops : OpsOk cl.args cl.pc.ops
  fresh : cl.NotStarted → x.Untouched id
  length : cl.Loading → lengthAfter (x.reg .length) cl.pc.ops = cl.args.bufsize
  list : cl.Loading → cl.args.chan.isSg = true → x.listBytes = cl.args.bufsize.toNat
  transfer : cl.Started → x.Transfer cl.args.chan id cl.args.bufsize.toNat
  second : .writeReg .start 2 ∈ cl.pc.ops → cl.Started ∧
    x.engine = .listed id cl.args.bufsize.toNat ∧
      (.writeReg .status 0 ∈ cl.pc.ops ∨ x.status = 0)
  through : cl.Succeeds → x.Through id cl.args.bufsize.toNat

variable {c : Chan} {x x' : ChanState} {id : ℕ} {cl : Call} {e : DevEvent}

lemma ChanState.dev_reg (h : x.dev c e = some x') : x'.reg = x.reg ∧ x'.listBytes = x.listBytes := by
  cases devSpec h <;> exact ⟨rfl, rfl⟩

lemma ChanState.dev_listed {n : ℕ} (h : x.dev c e = some x') (heng : x.engine = .listed id n) :
    x'.engine = .listed id n := by
  cases devSpec h with
  | listDone hid => simp [heng] at hid
  | issue hid hpos hle => simp [heng] at hid
  | finish hid => simp [heng] at hid
  | _ => exact heng

lemma ChanState.dev_status (h : x.dev c e = some x') (hstatus : x.status = 0)
    (hcounter : x.counter = none) (heng : x.engine.isFetching = false) : x'.status = 0 := by
  cases devSpec h with
  | listDone hid => simp [hid, Engine.isFetching] at heng
  | done hk hle hpos => simp [hcounter] at hk
  | _ => exact hstatus

theorem CallInv.dev (h : CallInv x id cl) (he : e.isForeign = false)
    (hdev : x.dev cl.args.chan e = some x') : CallInv x' id cl where
  ops := h.ops
  fresh hf := (h.fresh hf).dev hdev
  length hl := (ChanState.dev_reg hdev).1 ▸ h.length hl
  list hl hsg := (ChanState.dev_reg hdev).2.trans (h.list hl hsg)
  transfer hs := (h.transfer hs).dev he hdev
  second h2 := by
    obtain ⟨hstarted, heng, hclear⟩ := h.second h2
    refine ⟨hstarted, ChanState.dev_listed hdev heng, hclear.imp_right fun hstatus => ?_⟩
    have hwaits := (h.transfer hstarted).waits (by rw [heng]; rfl)
    exact ChanState.dev_status hdev hstatus hwaits.2 (by rw [heng]; rfl)
  through hs := (h.through hs).dev hdev

theorem CallInv.setFlag (h : CallInv x id cl) (v : BitVec 32) :
    CallInv { x with flag := v } id cl where
  ops := h.ops
  fresh hf := { h.fresh hf with }
  length := h.length
  list := h.list
  transfer hs := { h.transfer hs with }
  second := h.second
  through hs := { h.through hs with }

section Exec

variable {cl' : Call} {op : DrvOp} {ops : List DrvOp}

/-- The call goes on to its next operation, which is neither a START nor the end of the list. -/
structure Call.Next (cl cl' : Call) (op : DrvOp) (ops : List DrvOp) : Prop where
  here : cl.pc.ops = op :: ops
  active : cl.pc.active = true
  start : ∀ v, op ≠ .writeReg .start v
  list : op ≠ .getSgList
  ret : ∀ r, op ≠ .ret r
  args : cl'.args = cl.args
  pc : cl'.pc = .ofOps ops

namespace Call.Next

lemma ops_eq (h : cl.Next cl' op ops) : cl'.pc.ops = ops := by rw [h.pc, CallPc.ops_ofOps]

lemma active_eq (h : cl.Next cl' op ops) : cl'.pc.active = true := by
  rw [h.pc]
  cases ops <;> rfl

lemma mem {op' : DrvOp} (h : cl.Next cl' op ops) (hmem : op' ∈ cl'.pc.ops) : op' ∈ cl.pc.ops := by
  rw [h.ops_eq] at hmem
  rw [h.here]
  exact List.mem_cons_of_mem _ hmem

lemma mem_of_ne {op' : DrvOp} (h : cl.Next cl' op ops) (hmem : op' ∈ cl.pc.ops) (hne : op' ≠ op) :
    op' ∈ cl'.pc.ops := by
  rw [h.here] at hmem
  rw [h.ops_eq]
  exact (List.mem_cons.mp hmem).resolve_left hne

lemma loading (h : cl.Next cl' op ops) (hl : cl'.Loading) : cl.Loading :=
  ⟨h.active, fun hm => hl.list (h.mem_of_ne hm h.list.symm),
    fun r hm => hl.ret r (h.mem_of_ne hm (h.ret r).symm)⟩

lemma notStarted (h : cl.Next cl' op ops) : cl'.NotStarted ↔ cl.NotStarted := by
  constructor
  · exact Or.imp h.mem h.mem
  · exact Or.imp (fun hm => h.mem_of_ne hm (h.start 1).symm) fun hm => h.mem_of_ne hm h.list.symm

lemma started (h : cl.Next cl' op ops) : cl'.Started ↔ cl.Started := by
  constructor
  · intro hs
    exact ⟨h.active, fun hn => hs.started (h.notStarted.mpr hn),
      fun e hm => hs.error e (h.mem_of_ne hm (h.ret _).symm)⟩
  · intro hs
    exact ⟨h.active_eq, fun hn => hs.started (h.notStarted.mp hn), fun e hm => hs.error e (h.mem hm)⟩

lemma succeeds (h : cl.Next cl' op ops) (hs : cl'.Succeeds) : cl.Succeeds := by
  obtain ⟨n, hn⟩ := hs
  refine ⟨n, Or.inl (h.mem (hn.resolve_right ?_))⟩
  rw [h.pc]
  cases ops <;> simp [CallPc.ofOps]

end Call.Next

/-- The call goes on to its next operation, and nothing moves. -/
theorem CallInv.next (h : CallInv x id cl) (hn : cl.Next cl' op ops) (hk : x.Keeps x')
    (hbytes : x'.listBytes = x.listBytes)
    (hlen : lengthAfter (x'.reg .length) ops = lengthAfter (x.reg .length) (op :: ops))
    (hstatus : op = .writeReg .status 0 → x'.status = 0) : CallInv x' id cl' where
  ops := by
    rw [hn.ops_eq, hn.args]
    exact (hn.here ▸ h.ops).tail
  fresh hf := (h.fresh (hn.notStarted.mp hf)).keeps hk
  length hl := by
    rw [hn.ops_eq, hlen, ← hn.here, hn.args]
    exact h.length (hn.loading hl)
  list hl hsg := by
    rw [hbytes, hn.args]
    exact h.list (hn.loading hl) (hn.args ▸ hsg)
  transfer hs := by
    rw [hn.args]
    exact (h.transfer (hn.started.mp hs)).keeps hk hbytes
  second h2 := by
    obtain ⟨hs, heng, hclear⟩ := h.second (hn.mem h2)
    rw [hn.args, hk.engine]
    refine ⟨hn.started.mpr hs, heng, ?_⟩
    rcases hclear with hclear | h0
    · by_cases hop : op = .writeReg .status 0
      · exact Or.inr (hstatus hop)
      · exact Or.inl (hn.mem_of_ne hclear (Ne.symm hop))
    · exact Or.inr (hk.status.elim (fun heq => heq.trans h0) fun h => h)
  through hs := by
    rw [hn.args]
    exact (h.through (hn.succeeds hs)).keeps hk

lemma CallInv.stop (h : CallInv x id cl) (hargs : cl'.args = cl.args) (hk : x.Keeps x')
    (hops : cl'.pc.ops = []) (hactive : cl'.pc.active = false)
    (hret : ∀ n, cl'.pc = .returned (.transferred n) → cl.Succeeds) : CallInv x' id cl' where
  ops := by
    rw [hops]
    exact opsOk_nil
  fresh hn := by simp [Call.NotStarted, hops] at hn
  length hl := absurd hl.active (by simp [hactive])
  list hl := absurd hl.active (by simp [hactive])
  transfer hs := absurd hs.active (by simp [hactive])
  second h2 := by simp [hops] at h2
  through hs := by
    obtain ⟨n, hn⟩ := hs
    rw [hops] at hn
    rw [hargs]
    exact (h.through (hret n (hn.resolve_left (by simp)))).keeps hk

lemma CallInv.fail (hops : cl'.pc.ops = ops) (hok : OpsOk cl'.args ops)
    (hnot : ¬cl'.NotStarted) (hret : ∃ e, .ret (.error e) ∈ ops)
    (hsecond : .writeReg .start 2 ∉ ops) (hsucceeds : ¬cl'.Succeeds) : CallInv x' id cl' where
  ops := hops ▸ hok
  fresh hn := absurd hn hnot
  length hl := by
    obtain ⟨e, he⟩ := hret
    exact absurd (hops ▸ he) (hl.ret _)
  list hl := by
    obtain ⟨e, he⟩ := hret
    exact absurd (hops ▸ he) (hl.ret _)
  transfer hs := by
    obtain ⟨e, he⟩ := hret
    exact absurd (hops ▸ he) (hs.error e)
  second h2 := absurd (hops ▸ h2) hsecond
  through hs := absurd hs hsucceeds

lemma CallInv.start (h : CallInv x id cl) (hpc : cl.pc = .run (.writeReg .start 1 :: ops))
    (hrest : x.AtRest) (hargs : cl'.args = cl.args) (hpc' : cl'.pc = .ofOps ops) :
    CallInv (x.writeStart cl.args.chan id 1) id cl' := by
  have hok : OpsOk cl.args (.writeReg .start 1 :: ops) := by simpa [hpc, CallPc.ops] using h.ops
  have hops : cl'.pc.ops = ops := by rw [hpc', CallPc.ops_ofOps]
  have hconfig := hok.config ops List.suffix_rfl
  have hno : ∀ {op}, op ∈ ops → op.isConfig = false → False := fun hm hf => by
    simp [hconfig _ hm] at hf
  have hfresh : x.Untouched id := h.fresh (Or.inl (by simp [hpc, CallPc.ops]))
  have hload : cl.Loading := by
    refine ⟨by rw [hpc]; rfl, fun hm => ?_, fun r hm => ?_⟩
    · rw [hpc] at hm
      rcases List.mem_cons.mp hm with heq | hm
      · cases heq
      · exact hno hm rfl
    · rw [hpc] at hm
      rcases List.mem_cons.mp hm with heq | hm
      · cases heq
      · exact hno hm rfl
  have hlength := h.length hload
  rw [hpc] at hlength
  have hreg : (x.writeStart cl.args.chan id 1).reg = x.reg ∧
      (x.writeStart cl.args.chan id 1).listBytes = x.listBytes := by
    unfold ChanState.writeStart
    split_ifs <;> exact ⟨rfl, rfl⟩
  have hlen : cl.args.chan.isSg = false → (x.reg .length).toNat = cl.args.bufsize.toNat := by
    -- a block channel takes LENGTH with its START, the last operation
    intro hsg
    obtain rfl := hok.arm 1 ops List.suffix_rfl (Or.inl hsg)
    exact congrArg BitVec.toNat hlength
  have htransfer := ChanState.Transfer.start hrest hfresh hlen (h.list hload)
  exact {
    ops := by
      rw [hops, hargs]
      exact hok.tail
    fresh := fun hn => by
      unfold Call.NotStarted at hn
      rw [hops] at hn
      exact (hn.elim (fun hm => hno hm rfl) fun hm => hno hm rfl).elim
    length := fun _ => by
      rw [hops, hargs, hreg.1]
      exact hlength
    list := fun _ hsg => by
      rw [hargs] at hsg ⊢
      rw [hreg.2]
      exact h.list hload hsg
    transfer := fun _ => hargs ▸ htransfer
    second := fun h2 => (hno (hops ▸ h2) rfl).elim
    through := fun hs => by
      obtain ⟨n, hn⟩ := hs
      rw [hops, hpc'] at hn
      rcases hn with hm | hm
      · exact (hno hm rfl).elim
      · cases ops <;> simp [CallPc.ofOps] at hm }

lemma CallInv.startSecond (h : CallInv x id cl) (hpc : cl.pc = .run (.writeReg .start 2 :: ops))
    (hargs : cl'.args = cl.args) (hpc' : cl'.pc = .ofOps ops) :
    CallInv (x.writeStart cl.args.chan id 2) id cl' := by
  have hok : OpsOk cl.args (.writeReg .start 2 :: ops) := by simpa [hpc, CallPc.ops] using h.ops
  obtain rfl := hok.arm 2 ops List.suffix_rfl (Or.inr rfl)
  have hops : cl'.pc.ops = [] := by rw [hpc', CallPc.ops_ofOps]
  obtain ⟨hstarted, heng, hstatus⟩ := h.second (by simp [hpc, CallPc.ops])
  have htransfer := h.transfer hstarted
  have hsg : cl.args.chan.isSg = true := (htransfer.waits (by rw [heng]; rfl)).1
  have hload : cl.Loading := ⟨hstarted.active, by simp [hpc, CallPc.ops], by simp [hpc, CallPc.ops]⟩
  have hlength := h.length hload
  rw [hpc] at hlength
  have h0 : x.status = 0 := hstatus.resolve_left (by simp [hpc, CallPc.ops])
  have hreg : (x.writeStart cl.args.chan id 2).reg = x.reg ∧
      (x.writeStart cl.args.chan id 2).listBytes = x.listBytes := by
    unfold ChanState.writeStart
    split_ifs <;> exact ⟨rfl, rfl⟩
  exact {
    ops := by
      rw [hops]
      exact opsOk_nil
    fresh := fun hn => by simp [Call.NotStarted, hops] at hn
    length := fun _ => by
      rw [hops, hargs, hreg.1]
      exact hlength
    list := fun _ _ => by
      rw [hargs, hreg.2]
      exact h.list hload hsg
    transfer := fun _ => by
      rw [hargs]
      exact htransfer.second heng h0 (congrArg BitVec.toNat hlength)
    second := fun h2 => by simp [hops] at h2
    through := fun hs => by
      obtain ⟨n, hn⟩ := hs
      rw [hops, hpc'] at hn
      simp [CallPc.ofOps] at hn }

/-- `get_sg_list` has built the list. -/
lemma CallInv.build {dmaAddr : BitVec 64} {n : ℕ} (h : CallInv x id cl)
    (hpc : cl.pc = .run (.getSgList :: ops)) (hargs : cl'.args = cl.args)
    (hpc' : cl'.pc = .ofOps (cl.args.program dmaAddr n ++ ops)) :
    CallInv { x with buf := some id, listBytes := cl.args.bufsize.toNat } id cl' := by
  have hok : OpsOk cl.args (.getSgList :: ops) := by simpa [hpc, CallPc.ops] using h.ops
  obtain ⟨rfl, hsg⟩ := hok.list ops List.suffix_rfl
  rw [List.append_nil] at hpc'
  have hops : cl'.pc.ops = cl.args.program dmaAddr n := by rw [hpc', CallPc.ops_ofOps]
  obtain ⟨hstart, hsecond, hret, hlength⟩ := cl.args.program_ops dmaAddr hsg n
  have hfresh := h.fresh (Or.inr (by simp [hpc, CallPc.ops]))
  exact {
    ops := by
      rw [hops, hargs]
      exact CallArgs.program_opsOk dmaAddr cl.args hsg n
    fresh := fun _ => { hfresh with }
    length := fun _ => by
      rw [hops, hargs]
      exact hlength _
    list := fun _ _ => by rw [hargs]
    transfer := fun hs => absurd (Or.inl (hops ▸ hstart)) hs.started
    second := fun h2 => absurd (hops ▸ h2) hsecond
    through := fun hs => by
      obtain ⟨r, hr⟩ := hs
      rw [hops, hpc'] at hr
      rcases hr with hm | hm
      · exact absurd hm (hret _)
      · cases hp : cl.args.program dmaAddr n <;> simp [hp, CallPc.ofOps] at hm }

lemma Call.next_exec (dmaAddr : BitVec 64) (answer : Option ℕ) (hpc : cl.pc = .run (op :: ops))
    (hstart : ∀ v, op ≠ .writeReg .start v) (hlist : op ≠ .getSgList) (hret : ∀ r, op ≠ .ret r)
    (hanswer : ∀ n, op = .copyFromUser n → answer ≠ none) :
    cl.Next (cl.exec dmaAddr op answer ops) op ops where
  here := by rw [hpc]; rfl
  active := by rw [hpc]; rfl
  start := hstart
  list := hlist
  ret := hret
  args := rfl
  pc := by
    cases op with
    | copyFromUser n => exact if_neg (hanswer n rfl)
    | getSgList => exact absurd rfl hlist
    | ret r => exact absurd rfl (hret r)
    | _ => rfl

lemma Call.succeeds_of_exec (dmaAddr : BitVec 64) (answer : Option ℕ) (hok : OpsOk cl.args (op :: ops))
    (hpc : cl.pc = .run (op :: ops)) (hs : (cl.exec dmaAddr op answer ops).Succeeds) :
    cl.Succeeds := by
  cases op with
  | copyFromUser n =>
    cases answer with
    | none =>
      obtain ⟨n, hn⟩ := hs
      simp [Call.exec, CallPc.after, CallPc.ofOps, CallPc.ops] at hn
    | some m => exact (Call.next_exec dmaAddr _ hpc (by simp) (by simp) (by simp) (by simp)).succeeds hs
  | getSgList =>
    cases answer with
    | none =>
      obtain ⟨n, hn⟩ := hs
      simp [Call.exec, CallPc.after, CallPc.ops] at hn
    | some m =>
      obtain ⟨rfl, hsg⟩ := hok.list ops List.suffix_rfl
      have hret := (cl.args.program_ops dmaAddr hsg m).2.2.1
      obtain ⟨n, hn⟩ := hs
      rcases hn with hn | hn
      · simp [Call.exec, CallPc.after, hret] at hn
      · cases hp : cl.args.program dmaAddr m <;>
          simp [Call.exec, CallPc.after, hp, CallPc.ofOps] at hn
  | writeReg r v =>
    obtain ⟨n, hn⟩ := hs
    refine ⟨n, Or.inl ?_⟩
    rw [hpc]
    rcases hn with hn | hn
    · exact List.mem_cons_of_mem _ (by simpa [Call.exec, CallPc.after] using hn)
    · cases ops <;> simp [Call.exec, CallPc.after, CallPc.ofOps] at hn
  | ret r =>
    obtain ⟨n, hn⟩ := hs
    refine ⟨n, Or.inl ?_⟩
    simp only [Call.exec, CallPc.after, CallPc.ops, List.not_mem_nil, false_or,
      CallPc.returned.injEq] at hn
    simp [hpc, hn, CallPc.ops]
  | _ => exact (Call.next_exec dmaAddr _ hpc (by simp) (by simp) (by simp) (by simp)).succeeds hs

lemma Call.notStarted_of_exec (dmaAddr : BitVec 64) (answer : Option ℕ)
    (hpc : cl.pc = .run (op :: ops)) (h : (cl.exec dmaAddr op answer ops).NotStarted) :
    cl.NotStarted := by
  have hops : cl.pc.ops = op :: ops := by rw [hpc]; rfl
  unfold Call.NotStarted at h ⊢
  rw [hops]
  cases op with
  | getSgList => exact Or.inr List.mem_cons_self
  | copyFromUser n =>
    cases answer with
    | none => simp [Call.exec, CallPc.after] at h
    | some m =>
      exact Or.imp (List.mem_cons_of_mem _) (List.mem_cons_of_mem _)
        (by simpa [Call.exec, CallPc.after] using h)
  | ret r => simp [Call.exec, CallPc.after, CallPc.ops] at h
  | _ =>
    exact Or.imp (List.mem_cons_of_mem _) (List.mem_cons_of_mem _)
      (by simpa [Call.exec, CallPc.after] using h)

lemma CallInv.started_of_exec (dmaAddr : BitVec 64) (answer : Option ℕ) (h : CallInv x id cl)
    (hpc : cl.pc = .run (op :: ops)) (hop : op ≠ .writeReg .start 1)
    (hs : (cl.exec dmaAddr op answer ops).Started) : cl.Started := by
  have hops : cl.pc.ops = op :: ops := by rw [hpc]; rfl
  have hok : OpsOk cl.args (op :: ops) := hops ▸ h.ops
  cases op with
  | copyFromUser n =>
    cases answer with
    | none => exact absurd (by simp [Call.exec, CallPc.after, CallPc.ops_ofOps]) (hs.error (-efault))
    | some m =>
      exact (Call.next_exec dmaAddr _ hpc (by simp) (by simp) (by simp) (by simp)).started.mp hs
  | getSgList =>
    cases answer with
    | none => exact absurd hs.active (by simp [Call.exec, CallPc.after, CallPc.active])
    | some m =>
      obtain ⟨rfl, hsg⟩ := hok.list ops List.suffix_rfl
      refine absurd (Or.inl ?_) hs.started
      simpa [Call.exec, CallPc.after] using (cl.args.program_ops dmaAddr hsg m).1
  | writeReg r v =>
    cases r with
    | start =>
      rcases hok.start v ops List.suffix_rfl with rfl | ⟨rfl, -⟩
      · exact absurd rfl hop
      · exact (h.second (by simp [hops])).1
    | _ => exact (Call.next_exec dmaAddr _ hpc (by simp) (by simp) (by simp) (by simp)).started.mp hs
  | ret r => exact absurd hs.active (by simp [Call.exec, CallPc.after, CallPc.active])
  | _ => exact (Call.next_exec dmaAddr _ hpc (by simp) (by simp) (by simp) (by simp)).started.mp hs

/-- A call keeps its invariant with its own operations, if its START finds the channel at rest. -/
theorem CallInv.exec (dmaAddr : BitVec 64) (answer : Option ℕ) (h : CallInv x id cl)
    (hpc : cl.pc = .run (op :: ops)) (hrest : op = .writeReg .start 1 → x.AtRest) :
    CallInv (x.exec cl.args.chan id cl.args op answer) id (cl.exec dmaAddr op answer ops) := by
  have hops : cl.pc.ops = op :: ops := by rw [hpc]; rfl
  have hok : OpsOk cl.args (op :: ops) := hops ▸ h.ops
  have hself : x.Keeps x := ⟨rfl, rfl, rfl, rfl, rfl, Or.inl rfl⟩
  cases op with
  | copyFromUser n =>
    cases answer with
    | none =>
      have hfail : (cl.exec dmaAddr (.copyFromUser n) none ops).pc.ops =
          [.ret (.error (-efault))] := rfl
      refine CallInv.fail hfail (opsOk_of_forall (by simp) (by simp [List.suffix_cons_iff])) ?_ ⟨_, List.mem_singleton_self _⟩
        (by simp) ?_
      · simp [Call.NotStarted, hfail]
      · rintro ⟨n, hn⟩
        rw [hfail] at hn
        simp [Call.exec, CallPc.after, CallPc.ofOps] at hn
    | some m =>
      exact h.next (Call.next_exec dmaAddr _ hpc (by simp) (by simp) (by simp) (by simp))
        ⟨rfl, rfl, rfl, rfl, rfl, Or.inl rfl⟩ rfl rfl (by simp)
  | copyToUser n =>
    exact h.next (Call.next_exec dmaAddr _ hpc (by simp) (by simp) (by simp) (by simp)) hself rfl
      rfl (by simp)
  | getSgList =>
    cases answer with
    | none => exact h.stop rfl hself rfl rfl (fun n hn => by cases hn)
    | some n => exact h.build hpc rfl rfl
  | writeReg r v =>
    cases r with
    | start =>
      rcases hok.start v ops List.suffix_rfl with rfl | ⟨rfl, hsg⟩
      · exact h.start hpc (hrest rfl) rfl rfl
      · exact h.startSecond hpc rfl rfl
    | status =>
      exact h.next (Call.next_exec dmaAddr _ hpc (by simp) (by simp) (by simp) (by simp))
        ⟨rfl, rfl, rfl, rfl, rfl, Or.inr rfl⟩ rfl rfl (fun _ => rfl)
    | length =>
      refine h.next (Call.next_exec dmaAddr _ hpc (by simp) (by simp) (by simp) (by simp))
        ⟨rfl, rfl, rfl, rfl, rfl, Or.inl rfl⟩ rfl ?_ (by simp)
      simp [ChanState.exec, ChanState.writeReg, lengthAfter]
    | _ =>
      refine h.next (Call.next_exec dmaAddr _ hpc (by simp) (by simp) (by simp) (by simp))
        ⟨rfl, rfl, rfl, rfl, rfl, Or.inl rfl⟩ rfl ?_ (by simp)
      simp [ChanState.exec, ChanState.writeReg, lengthAfter]
  | clearFlag =>
    exact h.next (Call.next_exec dmaAddr _ hpc (by simp) (by simp) (by simp) (by simp))
      ⟨rfl, rfl, rfl, rfl, rfl, Or.inl rfl⟩ rfl rfl (by simp)
  | freeSgBuf =>
    exact h.next (Call.next_exec dmaAddr _ hpc (by simp) (by simp) (by simp) (by simp)) hself rfl
      rfl (by simp)
  | ret r =>
    refine h.stop rfl hself rfl rfl fun n hn => ⟨n, Or.inl ?_⟩
    cases hn
    simp [hops]

end Exec

section Wait

variable {pc : CallPc}

lemma CallInv.loop (h : CallInv x id cl) (hops : cl.pc.ops = []) (hactive : cl.pc.active = true)
    (hops' : pc.ops = []) (hactive' : pc.active = true) : CallInv x id { cl with pc := pc } := by
  have hload : cl.Loading := ⟨hactive, by simp [hops], by simp [hops]⟩
  have hstarted : cl.Started := ⟨hactive, by simp [Call.NotStarted, hops], by simp [hops]⟩
  have hlength := h.length hload
  rw [hops] at hlength
  exact {
    ops := by
      rw [hops']
      exact opsOk_nil
    fresh := fun hn => by simp [Call.NotStarted, hops'] at hn
    length := fun _ => by
      rw [hops']
      exact hlength
    list := fun _ => h.list hload
    transfer := fun _ => h.transfer hstarted
    second := fun h2 => by simp [hops'] at h2
    through := fun hs => by
      obtain ⟨n, hn⟩ := hs
      rw [hops'] at hn
      rcases hn with hm | rfl
      · simp at hm
      · simp [CallPc.active] at hactive' }

lemma CallInv.giveUp (err : ℤ) (hpc : pc = .ofOps (cl.args.exit err)) :
    CallInv x id { cl with pc := pc } := by
  subst hpc
  have hops : (CallPc.ofOps (cl.args.exit err)).ops = cl.args.exit err := CallPc.ops_ofOps _
  have hret : .ret (.error err) ∈ cl.args.exit err := by
    unfold CallArgs.exit
    split_ifs <;> simp
  refine CallInv.fail hops (CallArgs.exit_opsOk cl.args err) ?_ ⟨err, hret⟩ ?_ ?_
  · unfold Call.NotStarted CallArgs.exit
    split_ifs <;> simp [CallPc.ofOps, CallPc.ops]
  · unfold CallArgs.exit
    split_ifs <;> simp
  · rintro ⟨n, hn⟩
    unfold CallArgs.exit at hn
    split_ifs at hn <;> simp [CallPc.ofOps, CallPc.ops] at hn

lemma CallInv.readStatus (h : CallInv x id cl) (hpc : cl.pc = .reading) :
    CallInv x id { cl with pc := .ofOps (cl.args.onStatus x.status) } := by
  have hload : cl.Loading := ⟨by rw [hpc]; rfl, by simp [hpc, CallPc.ops], by simp [hpc, CallPc.ops]⟩
  have hstarted : cl.Started :=
    ⟨by rw [hpc]; rfl, by simp [Call.NotStarted, hpc, CallPc.ops], by simp [hpc, CallPc.ops]⟩
  have htransfer := h.transfer hstarted
  have hlength := h.length hload
  rw [hpc] at hlength
  have hops : (CallPc.ofOps (cl.args.onStatus x.status)).ops = cl.args.onStatus x.status :=
    CallPc.ops_ofOps _
  have hnot := cl.args.onStatus_notStarted x.status
  exact {
    ops := by
      rw [hops]
      exact CallArgs.onStatus_opsOk _ _
    fresh := fun hn => by
      unfold Call.NotStarted at hn
      rw [hops] at hn
      exact (hn.elim hnot.1 hnot.2).elim
    length := fun _ => by
      rw [hops, CallArgs.lengthAfter_onStatus]
      exact hlength
    list := fun _ => h.list hload
    transfer := fun _ => htransfer
    second := fun h2 => by
      rw [hops] at h2
      obtain ⟨hsg, hs, hclear, hret⟩ := CallArgs.onStatus_second h2
      refine ⟨⟨?_, ?_, ?_⟩, ?_, Or.inl (by rw [hops]; exact hclear)⟩
      · cases cl.args.onStatus x.status <;> rfl
      · unfold Call.NotStarted
        rw [hops]
        exact not_or.mpr hnot
      · intro e
        rw [hops]
        exact hret _
      · rcases htransfer.status (by rw [hs]; decide) with ⟨-, -, heng⟩ | ⟨hdone, -⟩
        · exact heng
        · rw [hs, ChanState.doneStatus, if_pos hsg] at hdone
          exact absurd hdone (by decide)
    through := fun hsucceeds => by
      obtain ⟨n, hn⟩ := hsucceeds
      rw [hops] at hn
      have hret : .ret (.transferred n) ∈ cl.args.onStatus x.status := by
        refine hn.resolve_right ?_
        cases cl.args.onStatus x.status <;> simp [CallPc.ofOps]
      obtain ⟨hne, hdone⟩ := CallArgs.onStatus_transferred hret
      rcases htransfer.status hne with ⟨hone, hsg, -⟩ | ⟨-, hwaits, hleft, hin⟩
      · rw [hdone hsg] at hone
        exact absurd hone (by decide)
      · exact htransfer.through hwaits hleft hin }

lemma WaitEvent.spec {dmaAddr : BitVec 64} {e : WaitEvent} {ce : CallEvent}
    (hevent : e.event x = some ce) (hpc : cl.pc.step dmaAddr cl.args ce = some pc) :
    cl.pc.ops = [] ∧ cl.pc.active = true ∧
      ((pc.ops = [] ∧ pc.active = true) ∨
        (∃ err, pc = .ofOps (cl.args.exit err) ∧ (e = .timeout ∨ e = .signal)) ∨
        (pc = .ofOps (cl.args.onStatus x.status) ∧ cl.pc = .reading)) := by
  cases hcl : cl.pc with
  | run ops => cases ops <;> cases e <;> simp only [WaitEvent.event] at hevent <;>
      (try split_ifs at hevent) <;> cases hevent <;> simp [hcl, CallPc.step] at hpc
  | waiting =>
    refine ⟨rfl, rfl, ?_⟩
    rw [hcl] at hpc
    cases e with
    | wake =>
      simp only [WaitEvent.event] at hevent
      split_ifs at hevent
      cases hevent
      cases hpc
      exact Or.inl ⟨rfl, rfl⟩
    | timeout =>
      simp only [WaitEvent.event] at hevent
      split_ifs at hevent
      cases hevent
      exact Or.inr (Or.inl ⟨_, (Option.some.inj hpc).symm, Or.inl rfl⟩)
    | signal =>
      simp only [WaitEvent.event] at hevent
      split_ifs at hevent
      cases hevent
      exact Or.inr (Or.inl ⟨_, (Option.some.inj hpc).symm, Or.inr rfl⟩)
    | testFlag => cases hevent; cases hpc
    | readStatus => cases hevent; cases hpc
  | woken =>
    refine ⟨rfl, rfl, Or.inl ?_⟩
    rw [hcl] at hpc
    cases e with
    | testFlag =>
      cases hevent
      cases hpc
      split_ifs <;> exact ⟨rfl, rfl⟩
    | readStatus => cases hevent; cases hpc
    | _ =>
      simp only [WaitEvent.event] at hevent
      split_ifs at hevent
      cases hevent
      cases hpc
  | reading =>
    refine ⟨rfl, rfl, Or.inr (Or.inr ⟨?_, rfl⟩)⟩
    rw [hcl] at hpc
    cases e with
    | testFlag => cases hevent; cases hpc
    | readStatus =>
      cases hevent
      exact (Option.some.inj hpc).symm
    | _ =>
      simp only [WaitEvent.event] at hevent
      split_ifs at hevent
      cases hevent
      cases hpc
  | returned r => cases e <;> simp only [WaitEvent.event] at hevent <;>
      (try split_ifs at hevent) <;> cases hevent <;> simp [hcl, CallPc.step] at hpc
  | oops => cases e <;> simp only [WaitEvent.event] at hevent <;>
      (try split_ifs at hevent) <;> cases hevent <;> simp [hcl, CallPc.step] at hpc

/-- A call keeps its invariant in its wait loop. -/
theorem CallInv.wait {dmaAddr : BitVec 64} {e : WaitEvent} {ce : CallEvent} (h : CallInv x id cl)
    (hevent : e.event x = some ce) (hpc : cl.pc.step dmaAddr cl.args ce = some pc) :
    CallInv x id { cl with pc := pc } := by
  obtain ⟨hops, hactive, ⟨hops', hactive'⟩ | ⟨err, hexit, -⟩ | ⟨rfl, hreading⟩⟩ :=
    WaitEvent.spec hevent hpc
  · exact h.loop hops hactive hops' hactive'
  · exact CallInv.giveUp err hexit
  · exact h.readStatus hreading

end Wait

end FpgaPcie
