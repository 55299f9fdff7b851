import FpgaPcie.Driver.Invariant

/-!
# The invariant of all calls

What the driver needs of its surroundings, as conditions on the steps, and the invariant that
holds of all calls under them.
-/

namespace FpgaPcie

namespace Sys

variable {s s' : Sys} {l : Label} {dmaAddr : Chan → BitVec 64}

/-- One call at a time is active on a channel. -/
def OneAtATime (s : Sys) : Label → Prop
  | .enter _ a => ∀ id cl, ¬s.Active a.chan id cl
  | .exec _ _ | .wait _ _ | .dev _ _ | .irq => True

/-- Each first START finds its channel at rest. -/
def StartsAtRest (s : Sys) : Label → Prop
  | .exec id _ => ∀ cl ops, s.call id = some cl → cl.pc = .run (.writeReg .start 1 :: ops) →
      (s.chan cl.args.chan).AtRest
  | .enter _ _ | .wait _ _ | .dev _ _ | .irq => True

/-- The H2C interrupt module counts no completion of the C2H list. -/
def NoForeign : Label → Prop
  | .dev _ e => e.isForeign = false
  | .enter _ _ | .exec _ _ | .wait _ _ | .irq => True

end Sys

/-- A property of a call and its channel that the step `l` keeps for each call of `s`. -/
structure CallStable (P : ChanState → ℕ → Call → Prop) (dmaAddr : Chan → BitVec 64) (s : Sys)
    (l : Label) : Prop where
  enter : ∀ id a, l = .enter id a → s.call id = none →
    P (s.chan a.chan) id { args := a, pc := .ofOps (a.entry (dmaAddr a.chan)) }
  exec : ∀ id answer cl op ops, l = .exec id answer → s.call id = some cl →
    cl.pc = .run (op :: ops) → P (s.chan cl.args.chan) id cl →
      P ((s.chan cl.args.chan).exec cl.args.chan id cl.args op answer) id
        (cl.exec (dmaAddr cl.args.chan) op answer ops)
  other : ∀ id answer cl op ops j cj, l = .exec id answer → s.call id = some cl →
    cl.pc = .run (op :: ops) → s.call j = some cj → j ≠ id → cj.args.chan = cl.args.chan →
      P (s.chan cl.args.chan) j cj →
        P ((s.chan cl.args.chan).exec cl.args.chan id cl.args op answer) j cj
  wait : ∀ id e ce cl pc, l = .wait id e → s.call id = some cl →
    e.event (s.chan cl.args.chan) = some ce →
      cl.pc.step (dmaAddr cl.args.chan) cl.args ce = some pc → P (s.chan cl.args.chan) id cl →
        P (s.chan cl.args.chan) id { cl with pc := pc }
  dev : ∀ e x id cl, l = .dev cl.args.chan e → (s.chan cl.args.chan).dev cl.args.chan e = some x →
    s.call id = some cl → P (s.chan cl.args.chan) id cl → P x id cl
  flag : ∀ c seen id cl, s.call id = some cl → cl.args.chan = c → P (s.chan c) id cl →
    P { s.chan c with flag := seen } id cl

section Calls

variable {P : ChanState → ℕ → Call → Prop} {s s' : Sys} {l : Label} {dmaAddr : Chan → BitVec 64}

lemma Sys.call_setCall {id i : ℕ} {cl ci : Call} (h : (s.setCall id cl).call i = some ci) :
    i = id ∧ ci = cl ∨ i ≠ id ∧ s.call i = some ci := by
  by_cases hid : i = id
  · subst hid
    rw [Sys.setCall_self, Option.some.injEq] at h
    exact Or.inl ⟨rfl, h.symm⟩
  · rw [Sys.setCall_of_ne _ _ hid] at h
    exact Or.inr ⟨hid, h⟩

theorem CallStable.step (h : CallStable P dmaAddr s l)
    (hall : ∀ id cl, s.call id = some cl → P (s.chan cl.args.chan) id cl)
    (hstep : s.step dmaAddr l = some s') :
    ∀ id cl, s'.call id = some cl → P (s'.chan cl.args.chan) id cl := by
  intro i ci hi
  cases Sys.stepSpec hstep with
  | @enter id a hcall =>
    rcases Sys.call_setCall hi with ⟨rfl, rfl⟩ | ⟨-, hci⟩
    · exact h.enter i a rfl hcall
    · exact hall i ci hci
  | @exec id answer cl op ops hcall hpc =>
    rw [Sys.setCall_chan]
    rcases Sys.call_setCall hi with ⟨rfl, rfl⟩ | ⟨hid, hci⟩
    · rw [show (cl.exec _ op answer ops).args = cl.args from rfl, Sys.setChan_self]
      exact h.exec i answer cl op ops rfl hcall hpc (hall i cl hcall)
    · rw [Sys.setChan_call] at hci
      by_cases hc : ci.args.chan = cl.args.chan
      · have hP := hall i ci hci
        rw [hc] at hP
        rw [hc, Sys.setChan_self]
        exact h.other id answer cl op ops i ci rfl hcall hpc hci hid hc hP
      · rw [Sys.setChan_of_ne _ _ hc]
        exact hall i ci hci
  | @wait id e ce cl pc hcall hevent hpc =>
    rcases Sys.call_setCall hi with ⟨rfl, rfl⟩ | ⟨-, hci⟩
    · exact h.wait i e ce cl pc rfl hcall hevent hpc (hall i cl hcall)
    · exact hall i ci hci
  | @dev c e x hf hdev =>
    change P ((s.setChan c x).chan ci.args.chan) i ci
    by_cases hc : ci.args.chan = c
    · subst hc
      rw [Sys.setChan_self]
      exact h.dev e x i ci rfl hdev hi (hall i ci hi)
    · rw [Sys.setChan_of_ne _ _ hc]
      exact hall i ci hi
  | irqEnter hidle => exact hall i ci hi
  | irqRead hreads => exact hall i ci hi
  | @irqSet c cs seen hsets =>
    change P ((s.setChan c { s.chan c with flag := seen c }).chan ci.args.chan) i ci
    by_cases hc : ci.args.chan = c
    · have hP := hall i ci hi
      rw [hc] at hP
      rw [hc, Sys.setChan_self]
      exact h.flag c (seen c) i ci hi hc hP
    · rw [Sys.setChan_of_ne _ _ hc]
      exact hall i ci hi

/-- A property of the four channels that every step keeps. -/
theorem Sys.chan_step {Q : Chan → ChanState → Prop} (hstep : s.step dmaAddr l = some s')
    (hall : ∀ c, Q c (s.chan c))
    (hexec : ∀ id answer cl op ops, l = .exec id answer → s.call id = some cl →
      cl.pc = .run (op :: ops) → Q cl.args.chan
        ((s.chan cl.args.chan).exec cl.args.chan id cl.args op answer))
    (hdev : ∀ c e x, l = .dev c e → (s.chan c).dev c e = some x → Q c x)
    (hflag : ∀ c v, Q c (s.chan c) → Q c { s.chan c with flag := v }) : ∀ c, Q c (s'.chan c) := by
  have hset : ∀ c x, Q c x → ∀ d, Q d ((s.setChan c x).chan d) := by
    intro c x hx d
    by_cases hd : d = c
    · subst hd
      rw [Sys.setChan_self]
      exact hx
    · rw [Sys.setChan_of_ne _ _ hd]
      exact hall d
  cases Sys.stepSpec hstep with
  | enter hcall => exact hall
  | exec hcall hpc => exact hset _ _ (hexec _ _ _ _ _ rfl hcall hpc)
  | wait hcall hevent hpc => exact hall
  | dev hf hx => exact hset _ _ (hdev _ _ _ rfl hx)
  | irqEnter hidle => exact hall
  | irqRead hreads => exact hall
  | irqSet hsets => exact hset _ _ (hflag _ _ (hall _))

/-- Calls that are active were active before, but for one that begins. -/
theorem Sys.active_step {c : Chan} {i : ℕ} {ci : Call} (hstep : s.step dmaAddr l = some s')
    (hi : s'.Active c i ci) : (∃ ci', s.Active c i ci') ∨ ∃ a, l = .enter i a ∧ a.chan = c := by
  obtain ⟨hci, hchan, hactive⟩ := hi
  cases Sys.stepSpec hstep with
  | @enter id a hcall =>
    rcases Sys.call_setCall hci with ⟨rfl, rfl⟩ | ⟨-, hci'⟩
    · exact Or.inr ⟨a, rfl, hchan⟩
    · exact Or.inl ⟨ci, hci', hchan, hactive⟩
  | @exec id answer cl op ops hcall hpc =>
    rcases Sys.call_setCall hci with ⟨rfl, rfl⟩ | ⟨-, hci'⟩
    · exact Or.inl ⟨cl, hcall, hchan, by rw [hpc]; rfl⟩
    · exact Or.inl ⟨ci, hci', hchan, hactive⟩
  | @wait id e ce cl pc hcall hevent hpc =>
    rcases Sys.call_setCall hci with ⟨rfl, rfl⟩ | ⟨-, hci'⟩
    · refine Or.inl ⟨cl, hcall, hchan, ?_⟩
      cases hcl : cl.pc with
      | returned r =>
        rw [hcl] at hpc
        cases ce <;> simp [CallPc.step] at hpc
      | oops =>
        rw [hcl] at hpc
        cases ce <;> simp [CallPc.step] at hpc
      | _ => rfl
    · exact Or.inl ⟨ci, hci', hchan, hactive⟩
  | dev hf hx => exact Or.inl ⟨ci, hci, hchan, hactive⟩
  | irqEnter hidle => exact Or.inl ⟨ci, hci, hchan, hactive⟩
  | irqRead hreads => exact Or.inl ⟨ci, hci, hchan, hactive⟩
  | irqSet hsets => exact Or.inl ⟨ci, hci, hchan, hactive⟩

/-- At most one call is active on a channel. -/
def Sys.Exclusive (s : Sys) : Prop :=
  ∀ c i ci k ck, s.Active c i ci → s.Active c k ck → i = k

theorem Sys.Exclusive.step (h : s.Exclusive) (hone : s.OneAtATime l)
    (hstep : s.step dmaAddr l = some s') : s'.Exclusive := by
  intro c i ci k ck hi hk
  rcases Sys.active_step hstep hi with ⟨ci', hi'⟩ | ⟨a, rfl, rfl⟩
  · rcases Sys.active_step hstep hk with ⟨ck', hk'⟩ | ⟨a, rfl, rfl⟩
    · exact h c i ci' k ck' hi' hk'
    · exact absurd hi' (hone i ci')
  · rcases Sys.active_step hstep hk with ⟨ck', hk'⟩ | ⟨a', heq, -⟩
    · exact absurd hk' (hone k ck')
    · cases heq
      rfl

lemma Sys.call_eq_none_step {i : ℕ} (hstep : s.step dmaAddr l = some s') (hi : s'.call i = none) :
    s.call i = none := by
  have hset : ∀ {id cl}, (s.setCall id cl).call i = none → s.call i = none := by
    intro id cl h
    by_cases hid : i = id
    · subst hid
      simp [Sys.setCall_self] at h
    · rwa [Sys.setCall_of_ne _ _ hid] at h
  cases Sys.stepSpec hstep with
  | enter hcall => exact hset hi
  | exec hcall hpc => exact hset hi
  | wait hcall hevent hpc => exact hset hi
  | dev hf hx => exact hi
  | irqEnter hidle => exact hi
  | irqRead hreads => exact hi
  | irqSet hsets => exact hi

end Calls

/-- Every call has its invariant, and a call that has not begun has touched nothing. -/
structure SysInv (s : Sys) : Prop where
  exclusive : s.Exclusive
  calls : ∀ id cl, s.call id = some cl → CallInv (s.chan cl.args.chan) id cl
  unborn : ∀ id, s.call id = none → ∀ c, (s.chan c).Untouched id

section Step

variable {s s' : Sys} {l : Label} {dmaAddr : Chan → BitVec 64} {c : Chan} {x : ChanState}
  {id j : ℕ} {a : CallArgs} {cl : Call}

lemma callInv_enter (h : x.Untouched id) (d : BitVec 64) :
    CallInv x id { args := a, pc := .ofOps (a.entry d) } := by
  have hops : (CallPc.ofOps (a.entry d)).ops = a.entry d := CallPc.ops_ofOps _
  obtain ⟨hsecond, hret, hstart, hload⟩ := a.entry_ops d
  exact {
    ops := by
      rw [hops]
      exact CallArgs.entry_opsOk d a
    fresh := fun _ => h
    length := fun hl => by
      have hlist := hl.list
      have hr := hl.ret
      rw [hops] at hlist hr ⊢
      exact (hload hlist hr).2 _
    list := fun hl hsg => by
      have hlist := hl.list
      have hr := hl.ret
      rw [hops] at hlist hr
      exact absurd hsg (by simp [(hload hlist hr).1])
    transfer := fun hs => by
      have hnot := hs.started
      have herr := hs.error
      unfold Call.NotStarted at hnot
      rw [hops] at hnot herr
      rcases hstart with hm | hm | ⟨e, hm⟩
      · exact absurd (Or.inl hm) hnot
      · exact absurd (Or.inr hm) hnot
      · exact absurd hm (herr e)
    second := fun h2 => absurd (hops ▸ h2) hsecond
    through := fun hs => by
      obtain ⟨n, hn⟩ := hs
      rw [hops] at hn
      rcases hn with hm | hm
      · exact absurd hm (hret n)
      · cases he : a.entry d <;> simp [he, CallPc.ofOps] at hm }

lemma ChanState.Through.exec {size : ℕ} {op : DrvOp} {answer : Option ℕ}
    (h : x.Through id size) (hj : j ≠ id) : (x.exec c j a op answer).Through id size := by
  cases op with
  | writeReg r v =>
    cases r with
    | start => exact h.start hj
    | _ => exact { h with }
  | getSgList => cases answer <;> exact { h with }
  | _ => exact { h with }

lemma ChanState.Untouched.exec {op : DrvOp} {answer : Option ℕ} (h : x.Untouched id)
    (hj : j ≠ id) : (x.exec c j a op answer).Untouched id := by
  cases op with
  | writeReg r v =>
    cases r with
    | start => exact h.start hj
    | _ => exact { h with }
  | getSgList => cases answer <;> exact { h with }
  | _ => exact { h with }

lemma CallPc.ops_of_not_active {pc : CallPc} (h : pc.active = false) : pc.ops = [] := by
  cases pc <;> first | rfl | cases h

/-- A call that is over keeps its invariant while another one has its channel. -/
lemma CallInv.exec_other {op : DrvOp} {answer : Option ℕ} (h : CallInv x id cl)
    (hactive : cl.pc.active = false) (hj : j ≠ id) : CallInv (x.exec c j a op answer) id cl where
  ops := h.ops
  fresh hn := (h.fresh hn).exec hj
  length hl := absurd hl.active (by simp [hactive])
  list hl := absurd hl.active (by simp [hactive])
  transfer hs := absurd hs.active (by simp [hactive])
  second h2 := by simp [CallPc.ops_of_not_active hactive] at h2
  through hs := (h.through hs).exec hj

lemma Sys.Exclusive.over {op : DrvOp} {ops : List DrvOp} {cj : Call} (h : s.Exclusive)
    (hcall : s.call id = some cl) (hpc : cl.pc = .run (op :: ops)) (hj : s.call j = some cj)
    (hne : j ≠ id) (hchan : cj.args.chan = cl.args.chan) : cj.pc.active = false := by
  by_contra ha
  rw [Bool.not_eq_false] at ha
  exact hne (h _ j cj id cl ⟨hj, hchan, ha⟩ ⟨hcall, rfl, by rw [hpc]; rfl⟩)

theorem SysInv.init : SysInv Sys.init where
  exclusive _ _ _ _ _ h := by cases h.call
  calls _ _ h := by cases h
  unborn _ _ _ := ⟨by simp [Sys.init, ChanState.reset, Engine.call], rfl, rfl, rfl⟩

theorem SysInv.step (h : SysInv s) (hone : s.OneAtATime l) (hrest : s.StartsAtRest l)
    (hforeign : Sys.NoForeign l) (hstep : s.step dmaAddr l = some s') : SysInv s' := by
  have hcalls : CallStable CallInv dmaAddr s l := {
    enter := fun id a hl hcall => callInv_enter (h.unborn id hcall _) _
    exec := fun id answer cl op ops hl hcall hpc hinv => by
      subst hl
      exact hinv.exec _ _ hpc fun hop => hrest _ _ hcall (hop ▸ hpc)
    other := fun id answer cl op ops j cj hl hcall hpc hj hne hchan hinv =>
      hinv.exec_other (h.exclusive.over hcall hpc hj hne hchan) hne.symm
    wait := fun id e ce cl pc hl hcall hevent hpc hinv => hinv.wait hevent hpc
    dev := fun e x id cl hl hdev hcall hinv => by
      subst hl
      exact hinv.dev hforeign hdev
    flag := fun c v id cl hcall hchan hinv => hinv.setFlag v }
  refine ⟨h.exclusive.step hone hstep, hcalls.step h.calls hstep, fun i hi => ?_⟩
  have hi' := Sys.call_eq_none_step hstep hi
  refine Sys.chan_step hstep (h.unborn i hi') (fun id answer cl op ops hl hcall hpc => ?_)
    (fun c e x hl hdev => (h.unborn i hi' c).dev hdev) fun c v hc => { hc with }
  refine (h.unborn i hi' _).exec ?_
  rintro rfl
  simp [hi'] at hcall

end Step

end FpgaPcie
