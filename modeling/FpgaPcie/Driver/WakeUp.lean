import FpgaPcie.Driver.Runs

/-!
# No wake-up is lost

The handler reads the four status registers before it sets the four flags, and a run for one
channel overwrites the flags of the others with what it has read. The news of a status word is
always somewhere: in the flag, in a read that the handler has done, or in one that it has to do.
-/

namespace FpgaPcie

/-- The handler has yet to read the register of the channel. -/
def Handler.WillRead (c : Chan) : Handler → Prop
  | .idle | .sets _ _ => False
  | .reads todo _ => c ∈ todo

/-- What the handler has read for the channel and has not set yet. -/
def Handler.pending (c : Chan) : Handler → Option (BitVec 32)
  | .idle => none
  | .reads todo seen => if c ∈ todo then none else some (seen c)
  | .sets todo seen => if c ∈ todo then some (seen c) else none

/-- The handler goes through the channels in their order. -/
def Handler.InOrder : Handler → Prop
  | .idle => True
  | .reads todo _ | .sets todo _ => todo <:+ irqOrder

namespace ChanState

variable {c : Chan} {x x' : ChanState} {e : DevEvent}

/-- The status register may still be set for the transfer that has been started. -/
def Armed (x : ChanState) : Prop := x.engine.isFetching = true ∨ x.counter ≠ none

/-- One word for each START. -/
structure LatchInv (x : ChanState) : Prop where
  once : x.status ≠ 0 → ¬x.Armed
  one : x.engine.isFetching = true → x.counter = none

lemma dev_of_not_armed (h : x.dev c e = some x') (harmed : ¬x.Armed) :
    x'.status = x.status ∧ ¬x'.Armed := by
  unfold Armed at harmed ⊢
  push Not at harmed
  obtain ⟨heng, hcounter⟩ := harmed
  cases devSpec h with
  | listDone hid => simp [hid, Engine.isFetching] at heng
  | done hk hle hpos => simp [hcounter] at hk
  | issue hid hpos hle => exact ⟨rfl, by simp [Engine.isFetching, hcounter]⟩
  | finish hid => exact ⟨rfl, by simp [Engine.isFetching, hcounter]⟩
  | _ => exact ⟨rfl, by simp [heng, hcounter, addCounter]⟩

theorem LatchInv.dev (h : x.LatchInv) (hdev : x.dev c e = some x') : x'.LatchInv := by
  obtain ⟨honce, hone⟩ := h
  cases devSpec hdev with
  | listDone hid =>
    have hcounter := hone (by rw [hid]; rfl)
    exact ⟨fun _ => by simp [Armed, latch, Engine.isFetching, hcounter], fun h => by cases h⟩
  | done hk hle hpos =>
    have heng : x.engine.isFetching ≠ true := fun h => by simp [hone h] at hk
    exact ⟨fun _ => by simpa [Armed, latch] using heng, fun h => absurd h heng⟩
  | issue hid hpos hle =>
    refine ⟨fun hs => ?_, fun h => by cases h⟩
    have hnot := honce hs
    simp only [Armed, hid, Engine.isFetching] at hnot ⊢
    exact hnot
  | finish hid =>
    refine ⟨fun hs => ?_, fun h => by cases h⟩
    have hnot := honce hs
    simp only [Armed, hid, Engine.isFetching] at hnot ⊢
    exact hnot
  | arrive hpos hle => exact ⟨honce, hone⟩
  | _ =>
    refine ⟨fun hs => ?_, fun h => by simp [addCounter, hone h]⟩
    simpa [Armed, addCounter] using honce hs

lemma Keeps.armed (h : x.Keeps x') : x'.Armed ↔ x.Armed := by
  unfold Armed
  rw [h.engine, h.counter]

lemma LatchInv.keeps (h : x.LatchInv) (hk : x.Keeps x') : x'.LatchInv where
  once hs := by
    rw [hk.armed]
    refine h.once fun h0 => hs ?_
    rcases hk.status with heq | h0'
    · exact heq.trans h0
    · exact h0'
  one := hk.engine ▸ hk.counter ▸ h.one

lemma LatchInv.start {j : ℕ} {v : BitVec 32} (hstatus : x.status = 0) (harmed : ¬x.Armed) :
    (x.writeStart c j v).LatchInv where
  once hs := absurd (writeStart_status.trans hstatus) hs
  one := by
    unfold Armed at harmed
    push Not at harmed
    obtain ⟨heng, hcounter⟩ := harmed
    unfold writeStart
    dsimp only
    split_ifs with hsg h2 h1 h1 hidle
    · simp [Engine.isFetching]
    · intro h
      cases he : x.engine with
      | fetching i => simp [he, Engine.isFetching] at heng
      | _ => simp [he, Engine.isFetching] at h
    · exact fun _ => hcounter
    · exact fun _ => hcounter
    · simp [Engine.isFetching]
    · exact fun h => absurd h heng

lemma dev_pulses (h : x.dev c e = some x') (h0 : x.status = 0) (hne : x'.status ≠ 0) :
    e.pulses = true := by
  cases devSpec h with
  | listDone hid => rfl
  | done hk hle hpos => rfl
  | _ => exact absurd h0 hne

lemma dev_status_ne (h : x.dev c e = some x') (hne : x.status ≠ 0) : x'.status ≠ 0 := by
  cases devSpec h with
  | listDone hid => exact fun h0 => hne ((if_neg hne).symm.trans h0)
  | done hk hle hpos => exact fun h0 => hne ((if_neg hne).symm.trans h0)
  | _ => exact hne

lemma dev_flag (h : x.dev c e = some x') : x'.flag = x.flag := by
  cases devSpec h <;> rfl

end ChanState

namespace Sys

variable (s : Sys)

/-- No call gives up. -/
def NoGiveUp : Label → Prop
  | .wait _ .timeout | .wait _ .signal => False
  | .wait _ .wake | .wait _ .testFlag | .wait _ .readStatus | .enter _ _ | .exec _ _ | .dev _ _
  | .irq => True

/-- A run of the handler has read the status of the channel as nonzero and has not set its flag
yet, or the status is still to be read. -/
def HandlerTells (c : Chan) : Prop :=
  s.msi = true ∨ s.handler.WillRead c ∨ ∃ v, v ≠ 0 ∧ s.handler.pending c = some v

/-- A call that waits while its status register is nonzero is told so, and the register stays
nonzero for a read that is still to come. -/
structure NoLostWakeUp (dmaAddr : Chan → BitVec 64) : Prop where
  told : ∀ id cl, s.call id = some cl → cl.pc = .waiting → (s.chan cl.args.chan).status ≠ 0 →
    (s.chan cl.args.chan).flag ≠ 0 ∨ s.HandlerTells cl.args.chan
  stays : ∀ id cl l s', s.call id = some cl → cl.pc = .waiting →
    (s.chan cl.args.chan).status ≠ 0 → s.step dmaAddr l = some s' →
      (s'.chan cl.args.chan).status ≠ 0

/-- The handler, or else the flag, has the news of channel `c`. -/
def Heard (c : Chan) : Prop :=
  s.HandlerTells c ∨ (s.chan c).flag ≠ 0 ∧ s.handler.pending c = none

end Sys

section Handler

variable {s s' : Sys} {c d : Chan} (cs : List Chan) (seen : Chan → BitVec 32)
  {dmaAddr : Chan → BitVec 64}

lemma mem_irqOrder (c : Chan) : c ∈ irqOrder := by
  cases c <;> decide

lemma notMem_of_suffix {cs : List Chan} (h : c :: cs <:+ irqOrder) : c ∉ cs :=
  (List.nodup_cons.mp (h.sublist.nodup (by decide))).1

lemma Handler.pending_read (v : BitVec 32) (hd : d ≠ c) :
    (if cs = [] then Handler.sets irqOrder (Function.update seen c v)
      else .reads cs (Function.update seen c v)).pending d =
      (Handler.reads (c :: cs) seen).pending d := by
  by_cases hcs : cs = []
  · subst hcs
    simp [Handler.pending, mem_irqOrder, hd]
  · rw [if_neg hcs]
    simp [Handler.pending, hd]

lemma Handler.pending_set (hd : d ≠ c) :
    (if cs = [] then Handler.idle else .sets cs seen).pending d =
      (Handler.sets (c :: cs) seen).pending d := by
  by_cases hcs : cs = []
  · subst hcs
    simp [Handler.pending, hd]
  · rw [if_neg hcs]
    simp [Handler.pending, hd]

theorem Sys.inOrder_step {l : Label} (h : s.handler.InOrder) (hstep : s.step dmaAddr l = some s') :
    s'.handler.InOrder := by
  cases Sys.stepSpec hstep with
  | irqEnter hidle => exact List.suffix_rfl
  | irqRead hreads =>
    rw [hreads] at h
    dsimp only
    split_ifs
    · exact List.suffix_rfl
    · exact (List.suffix_cons _ _).trans h
  | irqSet hsets =>
    rw [hsets] at h
    dsimp only
    split_ifs
    · trivial
    · exact (List.suffix_cons _ _).trans h
  | _ => exact h

/-- A step of the handler passes the news on. -/
theorem Sys.Heard.irq (h : s.Heard d) (horder : s.handler.InOrder)
    (hstatus : (s.chan d).status ≠ 0) (hstep : s.step dmaAddr .irq = some s') : s'.Heard d := by
  cases Sys.stepSpec hstep with
  | irqEnter hidle => exact Or.inl (Or.inr (Or.inl (mem_irqOrder d)))
  | @irqRead c cs seen hreads =>
    by_cases hd : d = c
    · -- the status of the channel is read while it is nonzero
      subst hd
      refine Or.inl (Or.inr (Or.inr ⟨_, hstatus, ?_⟩))
      rw [hreads] at horder
      by_cases hcs : cs = []
      · simp [hcs, Handler.pending, mem_irqOrder]
      · simp [hcs, Handler.pending, notMem_of_suffix horder]
    · have hpending := Handler.pending_read cs seen (s.chan c).status hd
      rw [← hreads] at hpending
      rcases h with (hmsi | hwill | ⟨v, hv, hp⟩) | ⟨hflag, hp⟩
      · exact Or.inl (Or.inl hmsi)
      · rw [hreads] at hwill
        have hmem : d ∈ cs := (List.mem_cons.mp hwill).resolve_left hd
        have hcs : cs ≠ [] := List.ne_nil_of_mem hmem
        exact Or.inl (Or.inr (Or.inl (by simpa [hcs, Handler.WillRead] using hmem)))
      · exact Or.inl (Or.inr (Or.inr ⟨v, hv, hpending.trans hp⟩))
      · exact Or.inr ⟨hflag, hpending.trans hp⟩
  | @irqSet c cs seen hsets =>
    by_cases hd : d = c
    · subst hd
      rcases h with (hmsi | hwill | ⟨v, hv, hp⟩) | ⟨hflag, hp⟩
      · exact Or.inl (Or.inl hmsi)
      · simp [hsets, Handler.WillRead] at hwill
      · right
        rw [hsets] at hp horder
        simp only [Handler.pending, List.mem_cons_self, if_true, Option.some.injEq] at hp
        refine ⟨?_, ?_⟩
        · rw [Sys.setChan_self]
          exact hp ▸ hv
        · by_cases hcs : cs = []
          · simp [hcs, Handler.pending]
          · simp [hcs, Handler.pending, notMem_of_suffix horder]
      · simp [hsets, Handler.pending] at hp
    · have hpending := Handler.pending_set cs seen hd
      rw [← hsets] at hpending
      rcases h with (hmsi | hwill | ⟨v, hv, hp⟩) | ⟨hflag, hp⟩
      · exact Or.inl (Or.inl hmsi)
      · simp [hsets, Handler.WillRead] at hwill
      · exact Or.inl (Or.inr (Or.inr ⟨v, hv, hpending.trans hp⟩))
      · refine Or.inr ⟨?_, hpending.trans hp⟩
        rwa [Sys.setChan_of_ne _ _ hd]

end Handler

/-- A call that has something else to do than to configure its channel, or to wait, has a channel
that is not armed. -/
structure WakeInv (x : ChanState) (_ : ℕ) (cl : Call) : Prop where
  ops : OpsOk cl.args cl.pc.ops
  fresh : cl.NotStarted → x.status = 0 ∧ ¬x.Armed
  cold : (∃ op ∈ cl.pc.ops, op.isConfig = false) →
    ¬x.Armed ∧ (x.status = 0 ∨ .writeReg .status 0 ∈ cl.pc.ops)

section Step

variable {s s' : Sys} {l : Label} {dmaAddr : Chan → BitVec 64} {c : Chan} {x x' : ChanState}
  {id j : ℕ} {a : CallArgs} {cl : Call} {op : DrvOp} {ops : List DrvOp}

/-- An operation that configures nothing is done on a channel that is not armed. -/
lemma WakeInv.atStart {v : BitVec 32} (h : WakeInv x id cl)
    (hpc : cl.pc = .run (.writeReg .start v :: ops)) : x.status = 0 ∧ ¬x.Armed := by
  have hops : cl.pc.ops = .writeReg .start v :: ops := by rw [hpc]; rfl
  have hok : OpsOk cl.args (.writeReg .start v :: ops) := hops ▸ h.ops
  obtain ⟨harmed, hstatus⟩ := h.cold ⟨.writeReg .start v, by simp [hops], rfl⟩
  refine ⟨hstatus.resolve_right fun hmem => ?_, harmed⟩
  rw [hops] at hmem
  have hmem' : .writeReg .status 0 ∈ ops := by simpa using hmem
  rcases hok.start v ops List.suffix_rfl with rfl | ⟨rfl, -⟩
  · have hconfig := hok.config ops List.suffix_rfl _ hmem'
    cases hconfig
  · rw [hok.arm 2 ops List.suffix_rfl (Or.inr rfl)] at hmem'
    simp at hmem'

/-- A call that has begun to configure its channel behind the START has no other operation left. -/
lemma WakeInv.of_config (hops : OpsOk cl.args cl.pc.ops)
    (hconfig : ∀ op ∈ cl.pc.ops, op.isConfig = true) : WakeInv x id cl where
  ops := hops
  fresh hn := by
    rcases hn with hm | hm
    · have hc := hconfig _ hm
      cases hc
    · have hc := hconfig _ hm
      cases hc
  cold hcold := by
    obtain ⟨op, hm, hop⟩ := hcold
    exact absurd (hconfig op hm) (by simp [hop])

theorem WakeInv.exec (d : BitVec 64) (answer : Option ℕ) (h : WakeInv x id cl)
    (hpc : cl.pc = .run (op :: ops)) :
    WakeInv (x.exec cl.args.chan id cl.args op answer) id (cl.exec d op answer ops) := by
  have hops : cl.pc.ops = op :: ops := by rw [hpc]; rfl
  have hok : OpsOk cl.args (op :: ops) := hops ▸ h.ops
  by_cases hstart : ∃ v, op = .writeReg .start v
  · obtain ⟨v, rfl⟩ := hstart
    refine WakeInv.of_config hok.exec ?_
    simp only [Call.exec, CallPc.after, CallPc.ops_ofOps]
    rcases hok.start v ops List.suffix_rfl with rfl | ⟨rfl, -⟩
    · exact hok.config ops List.suffix_rfl
    · simp [hok.arm 2 ops List.suffix_rfl (Or.inr rfl)]
  have hk : x.Keeps (x.exec cl.args.chan id cl.args op answer) :=
    ChanState.exec_keeps (not_exists.mp hstart)
  have hzero : x.status = 0 → (x.exec cl.args.chan id cl.args op answer).status = 0 :=
    fun h0 => hk.status.elim (fun heq => heq.trans h0) fun h0' => h0'
  refine ⟨hok.exec, fun hn => ?_, fun hcold => ?_⟩
  · obtain ⟨h0, harmed⟩ := h.fresh (Call.notStarted_of_exec d answer hpc hn)
    exact ⟨hzero h0, fun ha => harmed (hk.armed.mp ha)⟩
  · rw [hk.armed]
    -- what is left was there before
    have hkeep : (cl.exec d op answer ops).pc.ops = ops → op ≠ .writeReg .status 0 →
        ¬x.Armed ∧ ((x.exec cl.args.chan id cl.args op answer).status = 0 ∨
          .writeReg .status 0 ∈ (cl.exec d op answer ops).pc.ops) := by
      intro heq hne
      rw [heq] at hcold ⊢
      obtain ⟨op', hm, hop'⟩ := hcold
      obtain ⟨harmed, hstatus⟩ := h.cold ⟨op', by simp [hops, hm], hop'⟩
      refine ⟨harmed, hstatus.imp hzero fun hm' => ?_⟩
      rw [hops] at hm'
      exact (List.mem_cons.mp hm').resolve_left (Ne.symm hne)
    have hfresh : cl.NotStarted → ¬x.Armed ∧
        ((x.exec cl.args.chan id cl.args op answer).status = 0 ∨
          .writeReg .status 0 ∈ (cl.exec d op answer ops).pc.ops) :=
      fun hn => ⟨(h.fresh hn).2, Or.inl (hzero (h.fresh hn).1)⟩
    cases op with
    | copyFromUser n =>
      exact hfresh (Or.inl (hops ▸ List.mem_cons_of_mem _ (hok.copy n ops List.suffix_rfl)))
    | getSgList => exact hfresh (Or.inr (by simp [hops]))
    | ret r => simp [Call.exec, CallPc.after, CallPc.ops] at hcold
    | writeReg r v =>
      by_cases hr : r = .status
      · subst hr
        exact ⟨(h.cold ⟨_, hops ▸ List.mem_cons_self, rfl⟩).1, Or.inl rfl⟩
      · exact hkeep (CallPc.ops_ofOps _) (by simp [hr])
    | _ => exact hkeep (CallPc.ops_ofOps _) (by simp)

theorem WakeInv.wait {d : BitVec 64} {pc : CallPc} {e : WaitEvent} {ce : CallEvent}
    (hlatch : x.LatchInv) (hgives : e ≠ .timeout ∧ e ≠ .signal) (hevent : e.event x = some ce)
    (hpc : cl.pc.step d cl.args ce = some pc) : WakeInv x id { cl with pc := pc } := by
  obtain ⟨-, -, hcases⟩ := WaitEvent.spec hevent hpc
  rcases hcases with ⟨hops', -⟩ | ⟨err, rfl, hend⟩ | ⟨rfl, -⟩
  · refine WakeInv.of_config ?_ ?_
    · exact hops' ▸ opsOk_nil
    · simp [hops']
  · exact (hend.elim hgives.1 hgives.2).elim
  · refine ⟨?_, fun hn => ?_, fun hcold => ?_⟩
    · rw [CallPc.ops_ofOps]
      exact CallArgs.onStatus_opsOk _ _
    · unfold Call.NotStarted at hn
      rw [CallPc.ops_ofOps] at hn
      exact (hn.elim (cl.args.onStatus_notStarted _).1 (cl.args.onStatus_notStarted _).2).elim
    · rw [CallPc.ops_ofOps] at hcold ⊢
      obtain ⟨op, hm, -⟩ := hcold
      obtain ⟨hne, hclear⟩ := CallArgs.onStatus_clears (List.ne_nil_of_mem hm)
      exact ⟨hlatch.once hne, Or.inr hclear⟩

theorem WakeInv.dev {e : DevEvent} (h : WakeInv x id cl)
    (hdev : x.dev cl.args.chan e = some x') : WakeInv x' id cl where
  ops := h.ops
  fresh hn := by
    obtain ⟨h0, harmed⟩ := h.fresh hn
    obtain ⟨hstatus, harmed'⟩ := ChanState.dev_of_not_armed hdev harmed
    exact ⟨hstatus.trans h0, harmed'⟩
  cold hcold := by
    obtain ⟨harmed, hstatus⟩ := h.cold hcold
    obtain ⟨heq, harmed'⟩ := ChanState.dev_of_not_armed hdev harmed
    exact ⟨harmed', hstatus.imp_left heq.trans⟩

end Step

structure WakeSysInv (s : Sys) : Prop where
  exclusive : s.Exclusive
  order : s.handler.InOrder
  latch : ∀ c, (s.chan c).LatchInv
  calls : ∀ id cl, s.call id = some cl → WakeInv (s.chan cl.args.chan) id cl
  /-- No word is left on a channel without a call. -/
  rest : ∀ c, (∀ id cl, ¬s.Active c id cl) → (s.chan c).status = 0 ∧ ¬(s.chan c).Armed
  heard : ∀ c id cl, s.Active c id cl → .writeReg .status 0 ∉ cl.pc.ops →
    (s.chan c).status ≠ 0 → s.Heard c

section System

variable {s s' : Sys} {l : Label} {dmaAddr : Chan → BitVec 64} {c : Chan} {id : ℕ} {cl : Call}

lemma Sys.Active.setCall {i : ℕ} {ci : Call} (h : s.Active c i ci) (hi : i ≠ id) :
    (s.setCall id cl).Active c i ci :=
  ⟨(Sys.setCall_of_ne s cl hi).trans h.call, h.chan, h.active⟩

lemma CallPc.active_ofOps (ops : List DrvOp) : (CallPc.ofOps ops).active = true := by
  cases ops <;> rfl

/-- A call ends with its return, or when `get_sg_list` fails. -/
lemma Sys.active_or_ends (hi : s.Active c id cl) (hstep : s.step dmaAddr l = some s') :
    (∃ cl', s'.Active c id cl') ∨ ∃ answer op ops, l = .exec id answer ∧
      cl.pc = .run (op :: ops) ∧ ((∃ r, op = .ret r) ∨ op = .getSgList ∧ answer = none) := by
  cases Sys.stepSpec hstep with
  | @enter i a hcall =>
    left
    refine ⟨cl, hi.setCall ?_⟩
    rintro rfl
    simp [hi.call] at hcall
  | @exec i answer ci op ops hcall hpc =>
    by_cases hid : id = i
    · subst hid
      obtain rfl : cl = ci := Option.some.inj (hi.call.symm.trans hcall)
      have hnext : ∀ ops', (cl.exec (dmaAddr cl.args.chan) op answer ops).pc = .ofOps ops' →
          ∃ cl', Sys.Active ((s.setChan cl.args.chan ((s.chan cl.args.chan).exec cl.args.chan id
            cl.args op answer)).setCall id (cl.exec (dmaAddr cl.args.chan) op answer ops)) c id cl' :=
        fun ops' hops' => ⟨_, Sys.setCall_self _ _ _, hi.chan, hops' ▸ CallPc.active_ofOps ops'⟩
      cases op with
      | ret r => exact Or.inr ⟨answer, _, ops, rfl, hpc, Or.inl ⟨r, rfl⟩⟩
      | getSgList =>
        cases answer with
        | none => exact Or.inr ⟨none, _, ops, rfl, hpc, Or.inr ⟨rfl, rfl⟩⟩
        | some n => exact Or.inl (hnext _ rfl)
      | copyFromUser n =>
        cases answer with
        | none => exact Or.inl (hnext [.ret (.error (-efault))] rfl)
        | some m => exact Or.inl (hnext ops rfl)
      | _ => exact Or.inl (hnext _ rfl)
    · exact Or.inl ⟨cl, Sys.Active.setCall ⟨hi.call, hi.chan, hi.active⟩ hid⟩
  | @wait i e ce ci pc hcall hevent hpc =>
    left
    by_cases hid : id = i
    · subst hid
      obtain rfl : cl = ci := Option.some.inj (hi.call.symm.trans hcall)
      refine ⟨_, Sys.setCall_self _ _ _, hi.chan, ?_⟩
      obtain ⟨-, -, ⟨-, hactive⟩ | ⟨err, rfl, -⟩ | ⟨rfl, -⟩⟩ := WaitEvent.spec hevent hpc
      · exact hactive
      · exact CallPc.active_ofOps _
      · exact CallPc.active_ofOps _
    · exact ⟨cl, hi.setCall hid⟩
  | _ => exact Or.inl ⟨cl, hi.call, hi.chan, hi.active⟩

/-- A call leaves its channel without a word. -/
theorem WakeSysInv.rest_step (h : WakeSysInv s) (hone : s.OneAtATime l)
    (hstep : s.step dmaAddr l = some s') (hnone : ∀ i ci, ¬s'.Active c i ci) :
    (s'.chan c).status = 0 ∧ ¬(s'.chan c).Armed := by
  by_cases hbefore : ∃ i ci, s.Active c i ci
  · obtain ⟨i, ci, hi⟩ := hbefore
    rcases Sys.active_or_ends hi hstep with ⟨ci', hi'⟩ | ⟨answer, op, ops, rfl, hpc, hop⟩
    · exact absurd hi' (hnone i ci')
    have hinv := h.calls i ci hi.call
    have hops : ci.pc.ops = op :: ops := by rw [hpc]; rfl
    have hok : OpsOk ci.args (op :: ops) := hops ▸ hinv.ops
    have hnil : ops = [] := by
      rcases hop with ⟨r, rfl⟩ | ⟨rfl, -⟩
      · exact hok.ret r ops List.suffix_rfl
      · exact (hok.list ops List.suffix_rfl).1
    obtain ⟨harmed, hstatus⟩ := hinv.cold ⟨op, by simp [hops], by
      rcases hop with ⟨r, rfl⟩ | ⟨rfl, -⟩ <;> rfl⟩
    have hzero : (s.chan ci.args.chan).status = 0 := by
      refine hstatus.resolve_right ?_
      rw [hops, hnil]
      rcases hop with ⟨r, rfl⟩ | ⟨rfl, -⟩ <;> simp
    cases Sys.stepSpec hstep with
    | exec hcall hpc' =>
      obtain rfl := Option.some.inj (hi.call.symm.trans hcall)
      obtain ⟨rfl, rfl⟩ : op = _ ∧ ops = _ := by simpa [hpc] using hpc'
      rw [Sys.setCall_chan, ← hi.chan, Sys.setChan_self]
      rcases hop with ⟨r, rfl⟩ | ⟨rfl, rfl⟩
      · exact ⟨hzero, harmed⟩
      · exact ⟨hzero, harmed⟩
  · have hno : ∀ i ci, ¬s.Active c i ci := fun i ci hi => hbefore ⟨i, ci, hi⟩
    refine Sys.chan_step (Q := fun d x => d = c → x.status = 0 ∧ ¬x.Armed) hstep ?_ ?_ ?_ ?_ c rfl
    · rintro d rfl
      exact h.rest d hno
    · rintro i answer ci op ops - hcall hpc rfl
      exact absurd ⟨hcall, rfl, by rw [hpc]; rfl⟩ (hno i ci)
    · rintro d e x - hdev rfl
      obtain ⟨hzero, harmed⟩ := h.rest d hno
      obtain ⟨heq, harmed'⟩ := ChanState.dev_of_not_armed hdev harmed
      exact ⟨heq.trans hzero, harmed'⟩
    · exact fun d v hd => hd

/-- The news is in the flag, the handler and `msi`. -/
lemma Sys.Heard.congr (h : s.Heard c) (hflag : (s'.chan c).flag = (s.chan c).flag)
    (hhandler : s'.handler = s.handler) (hmsi : s.msi = true → s'.msi = true) : s'.Heard c := by
  unfold Sys.Heard Sys.HandlerTells at h ⊢
  rw [hflag, hhandler]
  exact h.imp_left (Or.imp_left hmsi)

lemma Sys.Heard.dev {d : Chan} {e : DevEvent} {x : ChanState} (h : s.Heard c)
    (hdev : (s.chan d).dev d e = some x) :
    Sys.Heard { s.setChan d x with msi := s.msi || e.pulses } c := by
  have hflag : ((s.setChan d x).chan c).flag = (s.chan c).flag := by
    by_cases hc : c = d
    · subst hc
      rw [Sys.setChan_self]
      exact ChanState.dev_flag hdev
    · rw [Sys.setChan_of_ne _ _ hc]
  exact h.congr hflag rfl fun hmsi => by simp [hmsi]

/-- With the status register nonzero, and not to be cleared, a call does nothing but to configure. -/
lemma WakeInv.config_of_status {x : ChanState} {d : BitVec 64} {answer : Option ℕ} {op : DrvOp}
    {ops : List DrvOp} (h : WakeInv x id cl) (hpc : cl.pc = .run (op :: ops))
    (hstatus : (x.exec cl.args.chan id cl.args op answer).status ≠ 0)
    (hclear : .writeReg .status 0 ∉ (cl.exec d op answer ops).pc.ops) : op.isConfig = true := by
  by_contra hcold
  rw [Bool.not_eq_true] at hcold
  have hops : cl.pc.ops = op :: ops := by rw [hpc]; rfl
  have hok : OpsOk cl.args (op :: ops) := hops ▸ h.ops
  have hne : x.status ≠ 0 := fun h0 =>
    hstatus (ChanState.exec_status.elim (fun heq => heq.trans h0) fun h0' => h0')
  have hmem : .writeReg .status 0 ∈ op :: ops :=
    hops ▸ (h.cold ⟨op, by simp [hops], hcold⟩).2.resolve_left hne
  cases op with
  | writeReg r v =>
    cases r with
    | start => exact hne (h.atStart hpc).1
    | status => exact hstatus rfl
    | _ => cases hcold
  | getSgList => exact hne (h.fresh (Or.inr (by simp [hops]))).1
  | copyFromUser n =>
    exact hne (h.fresh (Or.inl (hops ▸ List.mem_cons_of_mem _
      (hok.copy n ops List.suffix_rfl)))).1
  | ret r =>
    rw [hok.ret r ops List.suffix_rfl] at hmem
    simp at hmem
  | _ =>
    refine hclear ?_
    simpa [Call.exec, CallPc.after] using hmem

theorem WakeSysInv.heard_step (h : WakeSysInv s) (hone : s.OneAtATime l)
    (hstep : s.step dmaAddr l = some s') (hi : s'.Active c id cl)
    (hclear : .writeReg .status 0 ∉ cl.pc.ops) (hstatus : (s'.chan c).status ≠ 0) :
    s'.Heard c := by
  obtain ⟨hcl, hchan, hactive⟩ := hi
  cases Sys.stepSpec hstep with
  | @enter i a hcall =>
    rcases Sys.call_setCall hcl with ⟨rfl, rfl⟩ | ⟨-, hcl'⟩
    · -- a channel without a call has no word
      have hzero := (h.rest a.chan hone).1
      rw [← hchan] at hstatus
      exact absurd hzero hstatus
    · exact h.heard c id cl ⟨hcl', hchan, hactive⟩ hclear hstatus
  | @exec i answer ci op ops hcall hpc =>
    rcases Sys.call_setCall hcl with ⟨rfl, rfl⟩ | ⟨hne, hcl'⟩
    · subst hchan
      rw [Sys.setCall_chan, show (ci.exec _ op answer ops).args = ci.args from rfl,
        Sys.setChan_self] at hstatus
      have hconfig := (h.calls id ci hcall).config_of_status hpc hstatus hclear
      cases op with
      | writeReg r v =>
        have hkeep : ((s.chan ci.args.chan).exec ci.args.chan id ci.args (.writeReg r v) answer).flag =
            (s.chan ci.args.chan).flag ∧ ((s.chan ci.args.chan).exec ci.args.chan id ci.args
              (.writeReg r v) answer).status = (s.chan ci.args.chan).status := by
          cases r <;> first | exact ⟨rfl, rfl⟩ | cases hconfig
        have hbefore : s.Heard ci.args.chan := by
          refine h.heard _ id ci ⟨hcall, rfl, by rw [hpc]; rfl⟩ (fun hm => ?_) (hkeep.2 ▸ hstatus)
          rw [hpc] at hm
          rcases List.mem_cons.mp hm with heq | hm
          · rw [← heq] at hconfig
            cases hconfig
          · exact hclear (by simpa [Call.exec, CallPc.after] using hm)
        refine hbefore.congr ?_ rfl fun hmsi => hmsi
        rw [Sys.setCall_chan]
        exact (congrArg ChanState.flag (Sys.setChan_self _ _ _)).trans hkeep.1
      | _ => cases hconfig
    · rw [Sys.setChan_call] at hcl'
      have hc : c ≠ ci.args.chan := by
        rintro rfl
        exact hne (h.exclusive _ id cl i ci ⟨hcl', hchan, hactive⟩ ⟨hcall, rfl, by rw [hpc]; rfl⟩)
      have hsame : (s.setChan ci.args.chan ((s.chan ci.args.chan).exec ci.args.chan i ci.args op
          answer)).chan c = s.chan c := Sys.setChan_of_ne _ _ hc
      rw [Sys.setCall_chan, hsame] at hstatus
      refine (h.heard c id cl ⟨hcl', hchan, hactive⟩ hclear hstatus).congr ?_ rfl fun hmsi => hmsi
      rw [Sys.setCall_chan, hsame]
  | @wait i e ce ci pc hcall hevent hpc =>
    rcases Sys.call_setCall hcl with ⟨rfl, rfl⟩ | ⟨-, hcl'⟩
    · obtain ⟨hops, hactive', -⟩ := WaitEvent.spec hevent hpc
      exact h.heard c id ci ⟨hcall, hchan, hactive'⟩ (by simp [hops]) hstatus
    · exact h.heard c id cl ⟨hcl', hchan, hactive⟩ hclear hstatus
  | @dev d e x hf hdev =>
    by_cases hzero : (s.chan c).status = 0
    · -- the word that has just been latched comes with an interrupt
      by_cases hc : c = d
      · subst hc
        have hx : x.status ≠ 0 := by
          rwa [show ((s.setChan c x).chan c) = x from Sys.setChan_self _ _ _] at hstatus
        exact Or.inl (Or.inl (by simp [ChanState.dev_pulses hdev hzero hx]))
      · rw [show ((s.setChan d x).chan c) = s.chan c from Sys.setChan_of_ne _ _ hc] at hstatus
        exact absurd hzero hstatus
    · exact (h.heard c id cl ⟨hcl, hchan, hactive⟩ hclear hzero).dev hdev
  | irqEnter hidle =>
    exact (h.heard c id cl ⟨hcl, hchan, hactive⟩ hclear hstatus).irq h.order hstatus hstep
  | irqRead hreads =>
    exact (h.heard c id cl ⟨hcl, hchan, hactive⟩ hclear hstatus).irq h.order hstatus hstep
  | @irqSet d cs seen hsets =>
    have hsame : ((s.setChan d { s.chan d with flag := seen d }).chan c).status =
        (s.chan c).status := by
      by_cases hc : c = d
      · subst hc
        rw [Sys.setChan_self]
      · rw [Sys.setChan_of_ne _ _ hc]
    have hstatus' : (s.chan c).status ≠ 0 := hsame ▸ hstatus
    exact (h.heard c id cl ⟨hcl, hchan, hactive⟩ hclear hstatus').irq h.order hstatus' hstep

theorem WakeSysInv.init : WakeSysInv Sys.init where
  exclusive _ _ _ _ _ h := by cases h.call
  order := trivial
  latch _ := ⟨fun h => absurd rfl h, fun _ => rfl⟩
  calls _ _ h := by cases h
  rest _ _ := ⟨rfl, by simp [Sys.init, ChanState.reset, ChanState.Armed, Engine.isFetching]⟩
  heard _ _ _ h := by cases h.call

theorem WakeSysInv.step (h : WakeSysInv s) (hone : s.OneAtATime l) (hgives : Sys.NoGiveUp l)
    (hstep : s.step dmaAddr l = some s') : WakeSysInv s' where
  exclusive := h.exclusive.step hone hstep
  order := Sys.inOrder_step h.order hstep
  latch := by
    refine Sys.chan_step (Q := fun _ x => x.LatchInv) hstep h.latch ?_ (fun c e x _ hdev =>
      (h.latch c).dev hdev) fun c v hx => ⟨hx.once, hx.one⟩
    rintro id answer cl op ops - hcall hpc
    by_cases hop : ∃ v, op = .writeReg .start v
    · obtain ⟨v, rfl⟩ := hop
      obtain ⟨hzero, harmed⟩ := (h.calls id cl hcall).atStart hpc
      exact ChanState.LatchInv.start hzero harmed
    · exact (h.latch _).keeps (ChanState.exec_keeps (not_exists.mp hop))
  calls := by
    have hstable : CallStable WakeInv dmaAddr s l := {
      enter := fun id a hl hcall => by
        subst hl
        obtain ⟨hzero, harmed⟩ := h.rest a.chan hone
        exact ⟨by simpa using CallArgs.entry_opsOk _ a, fun _ => ⟨hzero, harmed⟩,
          fun _ => ⟨harmed, Or.inl hzero⟩⟩
      exec := fun id answer cl op ops hl hcall hpc hinv => hinv.exec _ _ hpc
      other := fun id answer cl op ops j cj hl hcall hpc hj hne hchan hinv => by
        have hover := CallPc.ops_of_not_active (h.exclusive.over hcall hpc hj hne hchan)
        exact WakeInv.of_config hinv.ops (by simp [hover])
      wait := fun id e ce cl pc hl hcall hevent hpc hinv => by
        subst hl
        refine WakeInv.wait (h.latch _) ⟨?_, ?_⟩ hevent hpc
        · rintro rfl
          exact hgives
        · rintro rfl
          exact hgives
      dev := fun e x id cl hl hdev hcall hinv => hinv.dev hdev
      flag := fun c v id cl hcall hchan hinv => ⟨hinv.ops, hinv.fresh, hinv.cold⟩ }
    exact hstable.step h.calls hstep
  rest c hnone := h.rest_step hone hstep hnone
  heard c id cl hi hclear hstatus := h.heard_step hone hstep hi hclear hstatus

lemma WakeSysInv.status_stays (h : WakeSysInv s) (hcall : s.call id = some cl)
    (hpc : cl.pc = .waiting) (hne : (s.chan cl.args.chan).status ≠ 0)
    (hstep : s.step dmaAddr l = some s') : (s'.chan cl.args.chan).status ≠ 0 := by
  refine Sys.chan_step (Q := fun c x => c = cl.args.chan → x.status ≠ 0) hstep ?_ ?_ ?_ ?_
    cl.args.chan rfl
  · rintro c rfl
    exact hne
  · intro i answer ci op ops _ hci hpc' hchan
    have hid := h.exclusive _ i ci id cl ⟨hci, hchan, by rw [hpc']; rfl⟩
      ⟨hcall, rfl, by rw [hpc]; rfl⟩
    subst hid
    obtain rfl := Option.some.inj (hcall.symm.trans hci)
    rw [hpc] at hpc'
    cases hpc'
  · rintro c e x - hdev rfl
    exact ChanState.dev_status_ne hdev hne
  · exact fun c v hc => hc

/-- With one call at a time on a channel, none of which gives up, no wake-up is lost. -/
theorem no_lost_wake_up (h : Reaches (Sys.step dmaAddr) (fun s l => s.OneAtATime l ∧
    Sys.NoGiveUp l) Sys.init s) : s.NoLostWakeUp dmaAddr := by
  have hinv : WakeSysInv s :=
    h.invariant .init fun s l s' hs hl hstep => hs.step hl.1 hl.2 hstep
  refine ⟨fun id cl hcall hpc hstatus => ?_, fun id cl l s' hcall hpc hne hstep =>
    hinv.status_stays hcall hpc hne hstep⟩
  have hheard := hinv.heard _ id cl ⟨hcall, rfl, by rw [hpc]; rfl⟩ (by simp [hpc, CallPc.ops])
    hstatus
  rcases hheard with htells | ⟨hflag, -⟩
  · exact Or.inr htells
  · exact Or.inl hflag

end System

/-- `block_c2h` waits, its transfer is done, and the handler has the status of another channel. -/
theorem no_lost_wake_up_block_c2h : ∃ s : Sys, s.NoLostWakeUp (fun _ => 0) ∧ ∃ cl : Call,
    s.call 0 = some cl ∧ cl.pc = .waiting ∧ (s.chan cl.args.chan).status ≠ 0 ∧
      (s.chan cl.args.chan).flag = 0 := by
  have hrun : (runSteps (fun s l => if (s.admits 1 l && l.waits) = true
      then s.step (fun _ => 0) l else none) Sys.init (blockC2hEntry 0 ++ [.irq, .irq, .irq] ++
        [.dev .c2hBl (.issue 64), .dev .c2hBl (.count 0 64 64), .dev .c2hBl .done])).any (fun s =>
          (s.call 0).any fun cl => decide (cl.pc = .waiting ∧
            (s.chan cl.args.chan).status ≠ 0 ∧ (s.chan cl.args.chan).flag = 0)) = true := by
    decide +kernel
  obtain ⟨s, hs, hcall⟩ := (Option.any_eq_true _ _).mp hrun
  obtain ⟨cl, hcl, hpc⟩ := (Option.any_eq_true _ _).mp hcall
  obtain ⟨hwaiting, hstatus, hflag⟩ := of_decide_eq_true hpc
  refine ⟨s, no_lost_wake_up (Sys.reaches_of_admits (fun s l hcheck => ?_) hs), cl, hcl,
    hwaiting, hstatus, hflag⟩
  cases l with
  | wait id e => cases e <;> trivial
  | _ => trivial

end FpgaPcie
