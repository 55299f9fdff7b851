import FpgaPcie.Driver.Completion

/-!
# Calls of one channel that do not overlap

The driver takes no lock. Two calls of one channel share its registers, its coherent buffer (or its
list buffer) and its status register, so each of them finds what is its own only if it begins when
the other one and its transfer are over.
-/

namespace FpgaPcie

/-- The registers that a call writes before its transfer. -/
def ChanReg.configures (c : Chan) : ChanReg → Bool
  | start | status => false
  | listLength => c.isSg
  | addrLo | addrHo | length | sdramLo | sdramHo => true

/-- The registers that are taken with a START: the first one of a scatter-gather channel takes the
list, and the second one the rest. -/
def ChanReg.takenWith (c : Chan) (v : BitVec 32) (r : ChanReg) : Bool :=
  r.configures c && !(c.isSg && decide (v = 1) && (r = length || r = sdramLo || r = sdramHo))

/-- The transfer of call `id` is not over: the engine works on it, or a part of it is on the link. -/
def ChanState.Unfinished (x : ChanState) (id : ℕ) : Prop :=
  x.engine.call = some id ∨ 0 < x.inFlight id ∨ 0 < x.owed id

namespace Sys

variable (s : Sys)

/-- A call begins on a channel that no other call has and that is at rest; the interrupts of its
transfer are neither early nor caused by a list. -/
structure Serial (l : Label) : Prop where
  one : s.OneAtATime l
  rest : ∀ id a, l = .enter id a → (s.chan a.chan).AtRest
  foreign : NoForeign l
  delivered : s.Delivered l

/-- What a call uses and what it is told is its own. -/
structure Owned : Prop where
  /-- START is written to an engine that takes it, with registers that the call has written. -/
  start : ∀ id cl v ops, s.call id = some cl → cl.pc = .run (.writeReg .start v :: ops) →
    (v = 1 ∧ (s.chan cl.args.chan).engine = .idle ∨
      v = 2 ∧ ∃ n, (s.chan cl.args.chan).engine = .listed id n) ∧
      ∀ r, r.takenWith cl.args.chan v = true → (s.chan cl.args.chan).writer r = some id
  /-- The buffer of `block_h2c` holds its data until its transfer ends. -/
  data : ∀ id cl, s.call id = some cl → cl.args.chan = .h2cBl → (s.chan .h2cBl).Unfinished id →
    (s.chan .h2cBl).buf = some id
  /-- The list buffer holds the list of the call until its transfer ends. -/
  list : ∀ id cl, s.call id = some cl → cl.args.chan.isSg = true →
    (s.chan cl.args.chan).Unfinished id → (s.chan cl.args.chan).buf = some id
  /-- The buffer of `block_c2h` holds its data when they are copied out. -/
  back : ∀ id cl n ops, s.call id = some cl → cl.pc = .run (.copyToUser n :: ops) →
    cl.args.bufsize ≠ 0 → (s.chan cl.args.chan).buf = some id
  /-- A call returns its size behind its own transfer. -/
  returned : ∀ id cl n, s.call id = some cl → cl.pc = .returned (.transferred n) →
    (s.chan cl.args.chan).moved id = cl.args.bufsize.toNat

end Sys

/-- Nothing moves on the channel any more. -/
structure ChanState.Still (x : ChanState) : Prop where
  engine : ∀ j n, x.engine = .moving j n → n = 0
  inFlight : ∀ j, x.inFlight j = 0

/-- Call `id`, its registers and its buffer. -/
structure OwnInv (x : ChanState) (id : ℕ) (cl : Call) : Prop where
  rest : cl.NotStarted → x.AtRest
  written : cl.Loading → ∀ r, r.configures cl.args.chan = true →
    x.writer r = some id ∨ ∃ v, .writeReg r v ∈ cl.pc.ops
  list : cl.args.chan.isSg = true → .writeReg .start 1 ∈ cl.pc.ops ∨ x.Unfinished id → x.buf = some id
  data : cl.args.chan = .h2cBl → (.writeReg .start 1 ∈ cl.pc.ops ∧
    (∀ n, .copyFromUser n ∉ cl.pc.ops)) ∨ x.Unfinished id → x.buf = some id
  gather : cl.args.chan = .c2hBl → cl.Started → 0 < x.moved id → x.buf = some id
  back : (∃ n, .copyToUser n ∈ cl.pc.ops) → cl.args.chan = .c2hBl ∧ x.Still ∧ ¬cl.NotStarted ∧
    (cl.args.bufsize ≠ 0 → x.buf = some id)

section Dev

variable {c : Chan} {x x' : ChanState} {id : ℕ} {cl : Call} {e : DevEvent}

lemma ChanState.AtRest.dev (h : x.AtRest) (hdev : x.dev c e = some x') : x'.AtRest := by
  obtain ⟨heng, hstatus, hcounter, hin, howed⟩ := h
  cases devSpec hdev with
  | foreign hc => exact ⟨heng, hstatus, by simp [addCounter, hcounter], hin, howed⟩
  | @countH2c i n k hc hpos hle hk =>
    rw [hin i] at hle
    omega
  | @countC2h i n k hc hpos hle hk =>
    rw [hin i] at hle
    omega
  | @arrive i n hpos hle =>
    rw [howed i] at hle
    omega
  | listDone hid => simp [heng] at hid
  | issue hid hpos hle => simp [heng] at hid
  | done hk hle hpos => simp [hcounter] at hk
  | finish hid => simp [heng] at hid

lemma ChanState.Still.dev (h : x.Still) (hdev : x.dev c e = some x') :
    x'.Still ∧ x'.buf = x.buf := by
  obtain ⟨heng, hin⟩ := h
  cases devSpec hdev with
  | listDone hid => exact ⟨⟨by simp [latch], hin⟩, rfl⟩
  | issue hid hpos hle =>
    have h0 := heng _ _ hid
    omega
  | @countH2c i n k hc hpos hle hk =>
    rw [hin i] at hle
    omega
  | @countC2h i n k hc hpos hle hk =>
    rw [hin i] at hle
    omega
  | finish hid => exact ⟨⟨by simp, hin⟩, rfl⟩
  | _ => exact ⟨⟨heng, hin⟩, rfl⟩

lemma ChanState.dev_buf (h : x.dev c e = some x') :
    x'.writer = x.writer ∧ (x'.buf = x.buf ∨ c = .c2hBl ∧ ∃ i n k, e = .count i n k ∧
      0 < x.inFlight i ∧ x'.buf = some i) := by
  cases devSpec h with
  | @countC2h i n k hc hpos hle hk =>
    refine ⟨rfl, ?_⟩
    by_cases hb : c = .c2hBl
    · exact Or.inr ⟨hb, i, n, k, rfl, by omega, if_pos hb⟩
    · exact Or.inl (if_neg hb)
  | _ => exact ⟨rfl, Or.inl rfl⟩

lemma ChanState.AtRest.keeps (h : x.AtRest) (hk : x.Keeps x') : x'.AtRest where
  engine := hk.engine.trans h.engine
  status := hk.status.elim (fun heq => heq.trans h.status) fun h0 => h0
  counter := hk.counter.trans h.counter
  inFlight j := hk.inFlight ▸ h.inFlight j
  owed j := hk.owed ▸ h.owed j

lemma ChanState.Unfinished.dev (hleft : x'.Unfinished id) (h : x.dev c e = some x') : x.Unfinished id := by
  unfold Unfinished at hleft ⊢
  cases devSpec h with
  | listDone hid =>
    rw [hid]
    exact hleft
  | @issue j left n hid hpos hle =>
    by_cases hj : id = j
    · subst hj
      exact Or.inl (by rw [hid]; rfl)
    · rw [hid]
      simpa [Function.update_of_ne hj, Engine.call] using hleft
  | @countH2c i n k hc hpos hle hk =>
    by_cases hi : id = i
    · subst hi
      exact Or.inr (Or.inl (by omega))
    · simpa only [addCounter, Function.update_of_ne hi] using hleft
  | @countC2h i n k hc hpos hle hk =>
    by_cases hi : id = i
    · subst hi
      exact Or.inr (Or.inl (by omega))
    · simpa only [addCounter, Function.update_of_ne hi] using hleft
  | @arrive i n hpos hle =>
    by_cases hi : id = i
    · subst hi
      exact Or.inr (Or.inr (by omega))
    · simpa only [Function.update_of_ne hi] using hleft
  | finish hid =>
    rcases hleft with heng | hleft
    · cases heng
    · exact Or.inr hleft
  | foreign hc => exact hleft
  | done hk hle hpos => exact hleft

lemma ChanState.dev_moved (h : x.dev c e = some x') (hmoved : 0 < x'.moved id) :
    0 < x.moved id ∨ 0 < x.owed id ∨ ∃ n k, e = .count id n k ∧ 0 < x.inFlight id := by
  cases devSpec h with
  | @countC2h i n k hc hpos hle hk =>
    by_cases hi : id = i
    · subst hi
      exact Or.inr (Or.inr ⟨n, k, rfl, by omega⟩)
    · exact Or.inl (by simpa only [addCounter, Function.update_of_ne hi] using hmoved)
  | @arrive i n hpos hle =>
    by_cases hi : id = i
    · subst hi
      exact Or.inr (Or.inl (by omega))
    · exact Or.inl (by simpa only [Function.update_of_ne hi] using hmoved)
  | _ => exact Or.inl hmoved

theorem OwnInv.dev (h : OwnInv x id cl) (hinv : CallInv x id cl)
    (hc2h : cl.args.chan.isH2c = false → x.owed id = 0)
    (hdev : x.dev cl.args.chan e = some x') : OwnInv x' id cl where
  rest hn := (h.rest hn).dev hdev
  written hl r hr := by
    rw [(ChanState.dev_buf hdev).1]
    exact h.written hl r hr
  list hsg hf := by
    have hb : x'.buf = x.buf := by
      rcases (ChanState.dev_buf hdev).2 with hb | ⟨hc, -⟩
      · exact hb
      · rw [hc] at hsg
        cases hsg
    rw [hb]
    exact h.list hsg (hf.imp_right fun hd => hd.dev hdev)
  data hc hd := by
    have hb : x'.buf = x.buf := by
      rcases (ChanState.dev_buf hdev).2 with hb | ⟨hc', -⟩
      · exact hb
      · rw [hc] at hc'
        cases hc'
    rw [hb]
    exact h.data hc (hd.imp_right fun hd => hd.dev hdev)
  gather hc hs hmoved := by
    have htransfer := hinv.transfer hs
    rcases (ChanState.dev_buf hdev).2 with hb | ⟨-, i, n, k, rfl, hin, hb⟩
    · rw [hb]
      rcases ChanState.dev_moved hdev hmoved with hm | hm | ⟨n, k, rfl, hin⟩
      · exact h.gather hc hs hm
      · rw [hc2h (by rw [hc]; rfl)] at hm
        omega
      · cases ChanState.devSpec hdev with
        | countH2c hh => simp [hc, Chan.isH2c] at hh
        | countC2h hh => rw [← hb]; simp [hc]
    · rw [hb, htransfer.eq_of_inFlight hin]
  back hn := by
    obtain ⟨hc, hstill, hnot, hb⟩ := h.back hn
    obtain ⟨hstill', hb'⟩ := hstill.dev hdev
    exact ⟨hc, hstill', hnot, hb' ▸ hb⟩

end Dev

section Exec

variable {c : Chan} {x : ChanState} {id j : ℕ} {a : CallArgs} {cl : Call} {op : DrvOp}
  {ops : List DrvOp} {answer : Option ℕ} {d : BitVec 64}

lemma ChanState.exec_writer (c : Chan) (x : ChanState) (j : ℕ) (a : CallArgs) (op : DrvOp)
    (answer : Option ℕ) :
    (x.exec c j a op answer).writer = x.writer ∨ ∃ r v, op = .writeReg r v ∧
      (x.exec c j a op answer).writer = Function.update x.writer r (some j) := by
  cases op with
  | writeReg r v =>
    cases r with
    | start =>
      left
      simp only [exec, writeReg, writeStart]
      split_ifs <;> rfl
    | status => exact Or.inl rfl
    | _ => exact Or.inr ⟨_, v, rfl, rfl⟩
  | getSgList => cases answer <;> exact Or.inl rfl
  | _ => exact Or.inl rfl

lemma ChanState.exec_configures {r : ChanReg} {v : BitVec 32} (hr : r.configures c = true) :
    (x.exec c j a (.writeReg r v) answer).writer r = some j := by
  cases r with
  | start => cases hr
  | status => cases hr
  | _ => simp [exec, writeReg]

/-- A transfer that is not over was not before, or is started now. -/
lemma ChanState.Unfinished.exec (h : (x.exec c j a op answer).Unfinished id) :
    x.Unfinished id ∨ j = id ∧ ∃ v, op = .writeReg .start v := by
  rcases h with hcall | hin | howed
  · by_cases hop : ∃ v, op = .writeReg .start v
    · obtain ⟨v, rfl⟩ := hop
      by_cases hj : j = id
      · exact Or.inr ⟨hj, v, rfl⟩
      refine Or.inl (Or.inl ?_)
      rcases writeStart_engine c x j v with heq | ⟨heq, -⟩ | ⟨n, heq⟩ | ⟨i, n, hi, heq⟩
      all_goals rw [show (x.exec c j a (.writeReg .start v) answer).engine = _ from heq] at hcall
      · exact hcall
      · exact absurd (Option.some.inj hcall) hj
      · exact absurd (Option.some.inj hcall) hj
      · exact hi.trans hcall
    · have hk : x.Keeps (x.exec c j a op answer) := exec_keeps (not_exists.mp hop)
      exact Or.inl (Or.inl (hk.engine ▸ hcall))
  · rw [exec_moved.1] at hin
    exact Or.inl (Or.inr (Or.inl hin))
  · rw [exec_moved.2.1] at howed
    exact Or.inl (Or.inr (Or.inr howed))

/-- The operations of a call that is not over are what is left of them, or begin with its list. -/
lemma Call.exec_ops (d : BitVec 64) (answer : Option ℕ) (hok : OpsOk cl.args (op :: ops)) :
    ((cl.exec d op answer ops).pc.ops = ops ∧ op ≠ .getSgList ∧ ∀ r, op ≠ .ret r) ∨
      ((cl.exec d op answer ops).pc.active = false ∧ (cl.exec d op answer ops).pc.ops = []) ∨
      (cl.exec d op answer ops).pc.ops = [.ret (.error (-efault))] ∨
      op = .getSgList ∧ cl.args.chan.isSg = true ∧ ∃ n, answer = some n ∧
        (cl.exec d op answer ops).pc.ops = cl.args.program d n := by
  cases op with
  | copyFromUser n =>
    cases answer with
    | none => exact Or.inr (Or.inr (Or.inl rfl))
    | some m => exact Or.inl ⟨CallPc.ops_ofOps _, by simp, by simp⟩
  | getSgList =>
    obtain ⟨rfl, hsg⟩ := hok.list ops List.suffix_rfl
    cases answer with
    | none => exact Or.inr (Or.inl ⟨rfl, rfl⟩)
    | some n =>
      refine Or.inr (Or.inr (Or.inr ⟨rfl, hsg, n, rfl, ?_⟩))
      simp [Call.exec, CallPc.after]
  | ret r => exact Or.inr (Or.inl ⟨rfl, rfl⟩)
  | _ => exact Or.inl ⟨CallPc.ops_ofOps _, by simp, by simp⟩

lemma CallArgs.program_configures (hsg : a.chan.isSg = true) (n : ℕ) {r : ChanReg}
    (hr : r.configures a.chan = true) : ∃ v, .writeReg r v ∈ a.program d n := by
  unfold program
  cases hc : a.chan <;> simp only [hc, Chan.isSg, reduceCtorEq] at hsg
  all_goals
    cases r <;> simp_all [ChanReg.configures, writeLength, writeSdramLo, writeSdramHo, writeAddrLo,
      writeAddrHo]

lemma CallArgs.entry_configures (hlist : .getSgList ∉ a.entry d) (hret : ∀ r, .ret r ∉ a.entry d)
    {r : ChanReg} (hr : r.configures a.chan = true) : ∃ v, .writeReg r v ∈ a.entry d := by
  unfold entry at hlist hret ⊢
  cases hc : a.chan with
  | c2hBl =>
    cases r <;> simp_all [ChanReg.configures, writeLength, writeSdramLo, writeSdramHo, writeAddrLo,
      writeAddrHo, Chan.isSg]
  | h2cBl =>
    simp only [hc] at hret ⊢
    split_ifs at hret ⊢
    · cases r <;> simp_all [ChanReg.configures, writeLength, writeSdramLo, writeSdramHo,
        writeAddrLo, writeAddrHo, Chan.isSg]
    · exact absurd List.mem_cons_self (hret _)
  | c2hSg => simp [hc] at hlist
  | h2cSg =>
    simp only [hc] at hlist hret
    split_ifs at hlist hret
    · exact absurd List.mem_cons_self (hret _)
    · exact absurd List.mem_cons_self hlist

lemma Call.notStarted_of_fills (hok : OpsOk cl.args cl.pc.ops) (hpc : cl.pc = .run (op :: ops))
    (hbuf : (x.exec c j a op answer).buf ≠ x.buf) : cl.NotStarted := by
  have hops : cl.pc.ops = op :: ops := by rw [hpc]; rfl
  rw [hops] at hok
  unfold Call.NotStarted
  rw [hops]
  cases op with
  | copyFromUser n => exact Or.inl (List.mem_cons_of_mem _ (hok.copy n ops List.suffix_rfl))
  | getSgList => exact Or.inr List.mem_cons_self
  | writeReg r v =>
    refine absurd ?_ hbuf
    cases r with
    | start =>
      simp only [ChanState.exec, ChanState.writeReg, ChanState.writeStart]
      split_ifs <;> rfl
    | _ => rfl
  | _ => exact absurd rfl hbuf

theorem OwnInv.exec (h : OwnInv x id cl) (hinv : CallInv x id cl)
    (hpc : cl.pc = .run (op :: ops)) :
    OwnInv (x.exec cl.args.chan id cl.args op answer) id (cl.exec d op answer ops) := by
  have hops : cl.pc.ops = op :: ops := by rw [hpc]; rfl
  have hok : OpsOk cl.args (op :: ops) := hops ▸ hinv.ops
  have hmem : ∀ {op'}, op' ∈ ops → op' ∈ cl.pc.ops := fun hm => by simp [hops, hm]
  have hself : x.buf = some id → (x.exec cl.args.chan id cl.args op answer).buf = some id :=
    fun hb => ChanState.exec_buf.elim (fun heq => heq.trans hb) fun heq => heq
  have hconfig : ∀ {v}, op = .writeReg .start v → ∀ op' ∈ ops, op'.isConfig = true := by
    rintro v rfl
    rcases hok.start v ops List.suffix_rfl with rfl | ⟨rfl, -⟩
    · exact hok.config ops List.suffix_rfl
    · simp [hok.arm 2 ops List.suffix_rfl (Or.inr rfl)]
  -- a START that is left is an old one, or the list has just been filled
  have hleft : .writeReg .start 1 ∈ (cl.exec d op answer ops).pc.ops →
      (x.exec cl.args.chan id cl.args op answer).buf = some id ∨
        (cl.exec d op answer ops).pc.ops = ops := by
    intro hm
    rcases Call.exec_ops d answer hok with ⟨heq, -⟩ | ⟨-, heq⟩ | heq |
      ⟨rfl, -, n, rfl, -⟩
    · exact Or.inr heq
    · simp [heq] at hm
    · simp [heq] at hm
    · exact Or.inl rfl
  refine ⟨fun hn => ?_, fun hl r hr => ?_, fun hsg hf => ?_, fun hc hd => ?_, fun hc hs hmoved => ?_,
    fun hn => ?_⟩
  · have hrest := h.rest (Call.notStarted_of_exec d answer hpc hn)
    by_cases hop : ∃ v, op = .writeReg .start v
    · obtain ⟨v, rfl⟩ := hop
      have hn' : .writeReg .start 1 ∈ ops ∨ .getSgList ∈ ops := by
        simpa only [Call.NotStarted, Call.exec, CallPc.after, CallPc.ops_ofOps] using hn
      rcases hn' with hm | hm
      · exact absurd (hconfig rfl _ hm) (by simp [DrvOp.isConfig])
      · exact absurd (hconfig rfl _ hm) (by simp [DrvOp.isConfig])
    · exact hrest.keeps (ChanState.exec_keeps (not_exists.mp hop))
  · rcases Call.exec_ops d answer hok with ⟨heq, hlist, hret⟩ | ⟨hactive, -⟩ |
      heq | ⟨rfl, hsg, n, rfl, heq⟩
    · have hload : cl.Loading := by
        refine ⟨by rw [hpc]; rfl, fun hm => ?_, fun r hm => ?_⟩
        · rw [hops] at hm
          rcases List.mem_cons.mp hm with heq' | hm
          · exact hlist heq'.symm
          · exact hl.list (by rwa [heq])
        · rw [hops] at hm
          rcases List.mem_cons.mp hm with heq' | hm
          · exact hret r heq'.symm
          · exact hl.ret r (by rwa [heq])
      rw [heq]
      rcases h.written hload r hr with hw | ⟨v, hm⟩
      · left
        rcases ChanState.exec_writer cl.args.chan x id cl.args op answer with hw' |
          ⟨r', v, -, hw'⟩
        · rw [hw']
          exact hw
        · rw [hw']
          by_cases hr' : r = r'
          · subst hr'
            exact Function.update_self _ _ _
          · exact (Function.update_of_ne hr' _ _).trans hw
      · rw [hops] at hm
        rcases List.mem_cons.mp hm with rfl | hm
        · exact Or.inl (ChanState.exec_configures hr)
        · exact Or.inr ⟨v, hm⟩
    · exact absurd hl.active (by simp [hactive])
    · exact absurd (heq ▸ List.mem_singleton_self _) (hl.ret _)
    · rw [heq]
      exact Or.inr (CallArgs.program_configures hsg n hr)
  · rcases hf with hm | hd
    · rcases hleft hm with hb | heq
      · exact hb
      · exact hself (h.list hsg (Or.inl (hmem (heq ▸ hm))))
    · rcases hd.exec with hd | ⟨-, v, rfl⟩
      · exact hself (h.list hsg (Or.inr hd))
      · rcases hok.start v ops List.suffix_rfl with rfl | ⟨rfl, -⟩
        · exact hself (h.list hsg (Or.inl (hops ▸ List.mem_cons_self)))
        · -- the second START continues the transfer of the list
          have hlisted := (hinv.second (hops ▸ List.mem_cons_self)).2.1
          exact hself (h.list hsg (Or.inr (Or.inl (by rw [hlisted]; rfl))))
  · rcases hd with ⟨hm, hcopy⟩ | hd
    · rcases hleft hm with hb | heq
      · exact hb
      · by_cases hop : ∃ n, op = .copyFromUser n
        · obtain ⟨n, rfl⟩ := hop
          rfl
        · refine hself (h.data hc (Or.inl ⟨hmem (heq ▸ hm), fun n hn => ?_⟩))
          rw [hops] at hn
          rcases List.mem_cons.mp hn with heq' | hn
          · exact hop ⟨n, heq'.symm⟩
          · exact hcopy n (by rwa [heq])
    · rcases hd.exec with hd | ⟨-, v, rfl⟩
      · exact hself (h.data hc (Or.inr hd))
      · rcases hok.start v ops List.suffix_rfl with rfl | ⟨rfl, hsg⟩
        · refine hself (h.data hc (Or.inl ⟨hops ▸ List.mem_cons_self, fun n hn => ?_⟩))
          rw [hops] at hn
          rcases List.mem_cons.mp hn with heq' | hn
          · cases heq'
          · exact absurd (hconfig rfl _ hn) (by simp [DrvOp.isConfig])
        · have hc' : cl.args.chan = .h2cBl := hc
          simp [hc', Chan.isSg] at hsg
  · rw [ChanState.exec_moved.2.2] at hmoved
    by_cases hop : op = .writeReg .start 1
    · have hfresh := (hinv.fresh (Or.inl (by simp [hops, hop]))).moved
      omega
    · exact hself (h.gather hc (hinv.started_of_exec d answer hpc hop hs) hmoved)
  · have hback : ∃ n, .copyToUser n ∈ cl.pc.ops := by
      obtain ⟨n, hm⟩ := hn
      refine ⟨n, ?_⟩
      rcases Call.exec_ops d answer hok with ⟨heq, -⟩ | ⟨-, heq⟩ | heq |
        ⟨-, -, k, -, heq⟩
      · exact hmem (heq ▸ hm)
      · simp [heq] at hm
      · simp [heq] at hm
      · exact absurd (heq ▸ hm) (cl.args.copyToUser_notMem d n k).2
    obtain ⟨hc, hstill, hnot, hb⟩ := h.back hback
    have hop : ∀ v, op ≠ .writeReg .start v := by
      rintro v rfl
      rcases hok.start v ops List.suffix_rfl with rfl | ⟨rfl, hsg⟩
      · exact hnot (Or.inl (hops ▸ List.mem_cons_self))
      · simp [hc, Chan.isSg] at hsg
    have hk : x.Keeps (x.exec cl.args.chan id cl.args op answer) := ChanState.exec_keeps hop
    refine ⟨hc, ⟨?_, ?_⟩, fun hn' => hnot (Call.notStarted_of_exec d answer hpc hn'),
      fun hne => hself (hb hne)⟩
    · rw [hk.engine]
      exact hstill.engine
    · rw [hk.inFlight]
      exact hstill.inFlight

/-- A call that is over keeps what it has on the channel when another one begins. -/
lemma OwnInv.exec_other {cj : Call} (h : OwnInv x id cl) (hactive : cl.pc.active = false)
    (hj : j ≠ id) (hown : OwnInv x j cj) (hok : OpsOk cj.args cj.pc.ops)
    (hpc : cj.pc = .run (op :: ops)) : OwnInv (x.exec c j cj.args op answer) id cl := by
  have hnil : cl.pc.ops = [] := CallPc.ops_of_not_active hactive
  -- whoever fills the buffer has found the channel at rest
  have hself : x.Unfinished id → x.buf = some id → (x.exec c j cj.args op answer).buf = some id := by
    intro hleft hb
    by_contra hne
    have hfills : (x.exec c j cj.args op answer).buf ≠ x.buf := fun heq => hne (heq.trans hb)
    have hrest := hown.rest (Call.notStarted_of_fills hok hpc hfills)
    rcases hleft with heng | hin | howed
    · rw [hrest.engine] at heng
      cases heng
    · rw [hrest.inFlight id] at hin
      omega
    · rw [hrest.owed id] at howed
      omega
  refine ⟨fun hn => ?_, fun hl => absurd hl.active (by simp [hactive]), fun hsg hf => ?_,
    fun hc hd => ?_, fun hc hs => absurd hs.active (by simp [hactive]), fun hn => ?_⟩
  · simp [Call.NotStarted, hnil] at hn
  · rcases hf with hm | hd
    · simp [hnil] at hm
    · rcases hd.exec with hd | ⟨hj', -⟩
      · exact hself hd (h.list hsg (Or.inr hd))
      · exact absurd hj' hj
  · rcases hd with ⟨hm, -⟩ | hd
    · simp [hnil] at hm
    · rcases hd.exec with hd | ⟨hj', -⟩
      · exact hself hd (h.data hc (Or.inr hd))
      · exact absurd hj' hj
  · simp [hnil] at hn

theorem OwnInv.wait {pc : CallPc} {e : WaitEvent} {ce : CallEvent} (h : OwnInv x id cl)
    (hinv : CallInv x id cl) (hc2h : cl.args.chan.isH2c = false → x.owed id = 0)
    (hevent : e.event x = some ce)
    (hpc : cl.pc.step d cl.args ce = some pc) : OwnInv x id { cl with pc := pc } := by
  obtain ⟨hops, hactive, hcases⟩ := WaitEvent.spec hevent hpc
  have hload : cl.Loading := ⟨hactive, by simp [hops], by simp [hops]⟩
  have hstarted : cl.Started := ⟨hactive, by simp [Call.NotStarted, hops], by simp [hops]⟩
  have hnot : .writeReg .start 1 ∉ pc.ops ∧ .getSgList ∉ pc.ops := by
    rcases hcases with ⟨hops', -⟩ | ⟨err, rfl, -⟩ | ⟨rfl, -⟩
    · simp [hops']
    · rw [CallPc.ops_ofOps]
      unfold CallArgs.exit
      split_ifs <;> simp
    · rw [CallPc.ops_ofOps]
      exact cl.args.onStatus_notStarted _
  refine ⟨fun hn => (hn.elim hnot.1 hnot.2).elim, fun hl r hr => ?_, fun hsg hf => ?_,
    fun hc hd => ?_, fun hc hs hmoved => h.gather hc hstarted hmoved, fun hn => ?_⟩
  · refine Or.inl ((h.written hload r hr).resolve_right ?_)
    simp [hops]
  · exact h.list hsg (hf.imp_left fun hm => absurd hm hnot.1)
  · exact h.data hc (hd.imp_left fun hm => absurd hm.1 hnot.1)
  · obtain ⟨n, hm⟩ := hn
    rcases hcases with ⟨hops', -⟩ | ⟨err, rfl, -⟩ | ⟨rfl, -⟩
    · simp [hops'] at hm
    · exact absurd (by simpa using hm) (cl.args.copyToUser_notMem_exit n err)
    · rw [CallPc.ops_ofOps] at hm
      obtain ⟨hc, hne⟩ := CallArgs.onStatus_copyToUser hm
      have htransfer := hinv.transfer hstarted
      have howed := hc2h (by rw [hc]; rfl)
      rcases htransfer.status hne with ⟨-, hsg, -⟩ | ⟨-, hwaits, hleft, hin⟩
      · simp [hc, Chan.isSg] at hsg
      have hstill : x.Still := by
        refine ⟨fun j n heng => ?_, fun j => ?_⟩
        · rw [heng] at hleft
          exact hleft
        · by_cases hj : j = id
          · exact hj ▸ hin
          · exact (htransfer.other j hj).1
      refine ⟨hc, hstill, fun hn' => (hn'.elim hnot.1 hnot.2).elim, fun hsize => ?_⟩
      -- all of its bytes have come
      have hsum := (htransfer.through hwaits hleft hin).sum
      have hpos : cl.args.bufsize.toNat ≠ 0 := fun h0 => hsize (BitVec.eq_of_toNat_eq h0)
      exact h.gather hc hstarted (by omega)

lemma CallArgs.entry_list (hsg : a.chan.isSg = true) : .writeReg .start 1 ∉ a.entry d := by
  unfold entry
  cases hc : a.chan <;> simp only [hc, Chan.isSg, reduceCtorEq] at hsg
  · simp
  · dsimp only
    split_ifs <;> simp

lemma CallArgs.entry_copies (hc : a.chan = .h2cBl) (h : .writeReg .start 1 ∈ a.entry d) :
    ∃ n, .copyFromUser n ∈ a.entry d := by
  unfold entry at h ⊢
  simp only [hc] at h ⊢
  split_ifs at h ⊢
  · exact ⟨_, List.mem_cons_self⟩
  · simp at h

lemma ChanState.Untouched.not_unfinished (h : x.Untouched id) : ¬x.Unfinished id := by
  rintro (heng | hin | howed)
  · exact h.engine heng
  · have h0 := h.inFlight
    omega
  · have h0 := h.owed
    omega

lemma ownInv_enter (hrest : x.AtRest) (hfresh : x.Untouched id) :
    OwnInv x id { args := a, pc := .ofOps (a.entry d) } := by
  have hops : (CallPc.ofOps (a.entry d)).ops = a.entry d := CallPc.ops_ofOps _
  refine ⟨fun _ => hrest, fun hl r hr => Or.inr ?_, fun hsg hf => ?_, fun hc hd => ?_,
    fun hc hs hmoved => ?_, fun hn => ?_⟩
  · have hlist := hl.list
    have hret := hl.ret
    rw [hops] at hlist hret ⊢
    exact CallArgs.entry_configures hlist hret hr
  · rcases hf with hm | hd
    · exact absurd (hops ▸ hm) (CallArgs.entry_list hsg)
    · exact absurd hd hfresh.not_unfinished
  · rcases hd with ⟨hm, hcopy⟩ | hd
    · rw [hops] at hm hcopy
      obtain ⟨n, hn⟩ := CallArgs.entry_copies hc hm
      exact absurd hn (hcopy n)
    · exact absurd hd hfresh.not_unfinished
  · have h0 := hfresh.moved
    omega
  · obtain ⟨n, hm⟩ := hn
    exact absurd (hops ▸ hm) (a.copyToUser_notMem d n 0).1

end Exec

structure OwnSysInv (s : Sys) : Prop extends DoneSysInv s where
  own : ∀ id cl, s.call id = some cl → OwnInv (s.chan cl.args.chan) id cl

section System

variable {s s' : Sys} {l : Label} {dmaAddr : Chan → BitVec 64}

theorem OwnSysInv.init : OwnSysInv Sys.init where
  toDoneSysInv := .init
  own _ _ h := by cases h

lemma OwnSysInv.startsAtRest (h : OwnSysInv s) (l : Label) : s.StartsAtRest l := by
  cases l with
  | exec id answer =>
    intro cl ops hcall hpc
    exact (h.own id cl hcall).rest (Or.inl (by simp [hpc, CallPc.ops]))
  | _ => trivial

theorem OwnSysInv.step (h : OwnSysInv s) (hserial : s.Serial l)
    (hstep : s.step dmaAddr l = some s') : OwnSysInv s' := by
  have hdone := h.toDoneSysInv.step hserial.one (h.startsAtRest l) hserial.foreign
    hserial.delivered hstep
  have hown : CallStable OwnInv dmaAddr s l := {
    enter := fun id a hl hcall => ownInv_enter (hserial.rest id a hl) (h.unborn id hcall _)
    exec := fun id answer cl op ops hl hcall hpc ho => ho.exec (h.calls id cl hcall) hpc
    other := fun id answer cl op ops j cj hl hcall hpc hj hne hchan ho =>
      ho.exec_other (h.exclusive.over hcall hpc hj hne hchan) hne.symm (h.own id cl hcall)
        (h.calls id cl hcall).ops hpc
    wait := fun id e ce cl pc hl hcall hevent hpc ho =>
      ho.wait (h.calls id cl hcall) (fun hc => h.c2h _ hc id) hevent hpc
    dev := fun e x id cl hl hdev hcall ho =>
      ho.dev (h.calls id cl hcall) (fun hc => h.c2h _ hc id) hdev
    flag := fun c v id cl hcall hchan ho =>
      ⟨fun hn => { ho.rest hn with }, ho.written, ho.list, ho.data, ho.gather, fun hn => by
        obtain ⟨hc, hstill, hnot, hb⟩ := ho.back hn
        exact ⟨hc, ⟨hstill.engine, hstill.inFlight⟩, hnot, hb⟩⟩ }
  exact ⟨hdone, hown.step h.own hstep⟩

lemma OwnSysInv.start {id : ℕ} {cl : Call} {v : BitVec 32} {ops : List DrvOp} (h : OwnSysInv s)
    (hcall : s.call id = some cl) (hpc : cl.pc = .run (.writeReg .start v :: ops)) :
    (v = 1 ∧ (s.chan cl.args.chan).engine = .idle ∨
      v = 2 ∧ ∃ n, (s.chan cl.args.chan).engine = .listed id n) ∧
      ∀ r, r.takenWith cl.args.chan v = true → (s.chan cl.args.chan).writer r = some id := by
  have hops : cl.pc.ops = .writeReg .start v :: ops := by rw [hpc]; rfl
  have hinv := h.calls id cl hcall
  have hown := h.own id cl hcall
  have hok : OpsOk cl.args (.writeReg .start v :: ops) := hops ▸ hinv.ops
  have hstart := hok.start v ops List.suffix_rfl
  have hconfig : ∀ op ∈ ops, op.isConfig = true := by
    rcases hstart with rfl | ⟨rfl, -⟩
    · exact hok.config ops List.suffix_rfl
    · simp [hok.arm 2 ops List.suffix_rfl (Or.inr rfl)]
  have hload : cl.Loading := by
    refine ⟨by rw [hpc]; rfl, fun hm => ?_, fun r hm => ?_⟩
    · rw [hops] at hm
      rcases List.mem_cons.mp hm with heq | hm
      · cases heq
      · exact absurd (hconfig _ hm) (by simp [DrvOp.isConfig])
    · rw [hops] at hm
      rcases List.mem_cons.mp hm with heq | hm
      · cases heq
      · exact absurd (hconfig _ hm) (by simp [DrvOp.isConfig])
  refine ⟨?_, fun r hr => ?_⟩
  · rcases hstart with rfl | ⟨rfl, -⟩
    · exact Or.inl ⟨rfl, (hown.rest (Or.inl (by simp [hops]))).engine⟩
    · exact Or.inr ⟨rfl, _, (hinv.second (by simp [hops])).2.1⟩
  · simp only [ChanReg.takenWith, Bool.and_eq_true, Bool.not_eq_true'] at hr
    refine (hown.written hload r hr.1).resolve_right ?_
    rintro ⟨w, hm⟩
    rw [hops] at hm
    rcases List.mem_cons.mp hm with heq | hm'
    · obtain rfl : r = .start := by cases heq; rfl
      cases hr.1
    -- what is still to be written is not taken with this START
    · by_cases hrest : cl.args.chan.isSg = false ∨ v = 2
      · rw [hok.arm v ops List.suffix_rfl hrest] at hm'
        simp at hm'
      · rw [not_or, Bool.not_eq_false] at hrest
        obtain ⟨hsg, hv⟩ := hrest
        obtain rfl : v = 1 := hstart.resolve_right fun h2 => hv h2.1
        refine hok.loaded ops List.suffix_rfl r w ?_ ?_ ?_ hm'
        · rintro rfl
          simp [hsg] at hr
        · rintro rfl
          simp [hsg] at hr
        · rintro rfl
          simp [hsg] at hr

/-- Calls that begin on a channel at rest do not meet. -/
theorem calls_owned (h : Reaches (Sys.step dmaAddr) Sys.Serial Sys.init s) : s.Owned := by
  have hinv : OwnSysInv s := h.invariant .init fun s l s' hs hl hstep => hs.step hl hstep
  refine ⟨fun id cl v ops hcall hpc => hinv.start hcall hpc, fun id cl hcall hc hd => ?_,
    fun id cl hcall hsg hd => (hinv.own id cl hcall).list hsg (Or.inr hd),
    fun id cl n ops hcall hpc hsize => ?_, fun id cl n hcall hpc => hinv.moved hcall hpc⟩
  · have hdata := (hinv.own id cl hcall).data hc
    rw [hc] at hdata
    exact hdata (Or.inr hd)
  · exact ((hinv.own id cl hcall).back ⟨n, by simp [hpc, CallPc.ops]⟩).2.2.2 hsize

end System

/-- A call enters at rest, and a transfer is done when all its beats are counted. -/
def Sys.servesOne (s : Sys) : Label → Bool
  | .enter _ a => Sys.rests 1 (s.chan a.chan)
  | .dev c .done => (List.range 1).all fun i => decide ((s.chan c).owed i = 0)
  | _ => true

/-- One complete call of `block_c2h`. -/
theorem block_c2h_owned : ∃ s, Reaches (Sys.step fun _ => 0) Sys.Serial Sys.init s ∧ s.Owned ∧
    ∃ cl, s.call 0 = some cl ∧ cl.pc = .returned (.transferred 64) := by
  have hrun : (runSteps (fun s l => if (s.admits 1 l && s.startsAtRest 1 l && s.servesOne l) = true
      then s.step (fun _ => 0) l else none) Sys.init
        (blockC2hEntry 0 ++ blockC2hTransfer 0 ++ blockC2hReturn 0)).any (fun s =>
          (s.call 0).any fun cl => decide (cl.pc = .returned (.transferred 64))) = true := by
    decide +kernel
  obtain ⟨s, hs, hcall⟩ := (Option.any_eq_true _ _).mp hrun
  obtain ⟨cl, hcl, hpc⟩ := (Option.any_eq_true _ _).mp hcall
  have hreach : Reaches (Sys.step fun _ => 0) Sys.Serial Sys.init s := by
    refine (Sys.reaches_of_startsAtRest (P := fun s l =>
      (∀ id a, l = .enter id a → (s.chan a.chan).AtRest) ∧ s.Delivered l) ?_ hs).mono
      fun s l hl => ⟨hl.1, hl.2.2.2.1, hl.2.2.1, hl.2.2.2.2⟩
    intro s l hinv hnone hcheck
    cases l with
    | enter id a =>
      refine ⟨?_, trivial⟩
      rintro i b ⟨⟩
      exact Sys.atRest_of_rests hinv hnone hcheck
    | dev c e =>
      refine ⟨fun i a h => (by cases h), ?_⟩
      cases e with
      | done =>
        intro i
        by_cases hi : i < 1
        · simpa using (List.all_eq_true.mp hcheck) i (List.mem_range.mpr hi)
        · exact (hinv.unborn i (hnone i (not_lt.mp hi)) c).owed
      | _ => trivial
    | _ => exact ⟨fun i a h => (by cases h), trivial⟩
  exact ⟨s, hreach, calls_owned hreach, cl, hcl, by simpa using hpc⟩

/-- `block_h2c` for `n` bytes, up to its START. -/
def blockH2cLoad (id : ℕ) (n : BitVec 32) : List Label :=
  .enter id ⟨.h2cBl, n, 0⟩ :: List.replicate 6 (.exec id (some 0))

/-- Two calls of `block_h2c` write their registers, and the first one starts with the LENGTH of
the second one. -/
theorem calls_mixed :
    ∃ s, Reaches (Sys.step fun _ => 0) (fun _ _ => True) Sys.init s ∧ ¬s.Owned := by
  have hrun : (runSteps (fun s l => if true = true then s.step (fun _ => 0) l else none)
      Sys.init (blockH2cLoad 0 64 ++ blockH2cLoad 1 128)).any (fun s => (s.call 0).any fun cl =>
        decide (cl.args.chan = .h2cBl ∧ cl.pc = .run [.writeReg .start 1] ∧
          (s.chan .h2cBl).writer .length = some 1)) = true := by
    decide +kernel
  obtain ⟨s, hs, hcall⟩ := (Option.any_eq_true _ _).mp hrun
  obtain ⟨cl, hcl, hpc⟩ := (Option.any_eq_true _ _).mp hcall
  obtain ⟨hchan, hpc, hwriter⟩ := of_decide_eq_true hpc
  refine ⟨s, reaches_of_runSteps .refl (fun _ _ _ => trivial) hs, fun h => ?_⟩
  have hown := (h.start 0 cl 1 [] hcl hpc).2 .length (by rw [hchan]; rfl)
  rw [hchan, hwriter] at hown
  cases hown

end FpgaPcie
