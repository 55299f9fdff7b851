import FpgaPcie.Driver.SystemInvariant

/-!
# Runs with a few calls

The conditions on the steps quantify over all calls. On a run whose calls are below `n` they are
decidable.
-/

namespace FpgaPcie

/-- The label is no wait that gives up. -/
def Label.waits : Label → Bool
  | .wait _ e => decide (e ≠ .timeout ∧ e ≠ .signal)
  | _ => true

namespace Sys

/-- At most one of the calls below `n` is active on each channel. -/
def admits (n : ℕ) (s : Sys) : Label → Bool
  | .enter id a => decide (id < n) && (List.range n).all fun i =>
      (s.call i).all fun cl => decide (cl.args.chan ≠ a.chan) || !cl.pc.active
  | .exec _ _ | .wait _ _ | .dev _ _ | .irq => true

/-- Nothing is left of the calls below `n`. -/
def rests (n : ℕ) (x : ChanState) : Bool :=
  decide (x.engine = .idle ∧ x.status = 0 ∧ x.counter = none) &&
    (List.range n).all fun i => decide (x.inFlight i = 0 ∧ x.owed i = 0)

/-- The channel is at rest at the START of a call, and no completion of the list is counted. -/
def startsAtRest (n : ℕ) (s : Sys) : Label → Bool
  | .exec id _ => (s.call id).all fun cl =>
      decide (cl.pc.ops.head? ≠ some (.writeReg .start 1)) || rests n (s.chan cl.args.chan)
  | .dev _ e => !e.isForeign
  | .enter _ _ | .wait _ _ | .irq => true

variable {n : ℕ} {s s' : Sys} {l : Label} {dmaAddr : Chan → BitVec 64}

lemma call_step_of_ne {i : ℕ} (hstep : s.step dmaAddr l = some s') (hl : ∀ a, l ≠ .enter i a)
    (hi : s.call i = none) : s'.call i = none := by
  have hset : ∀ {s₁ : Sys} {id cl}, s₁.call i = none → i ≠ id → (s₁.setCall id cl).call i = none :=
    fun h hid => (setCall_of_ne _ _ hid).trans h
  cases stepSpec hstep with
  | enter hcall =>
    refine hset hi ?_
    rintro rfl
    exact hl _ rfl
  | exec hcall hpc =>
    refine hset hi ?_
    rintro rfl
    simp [hi] at hcall
  | wait hcall hevent hpc =>
    refine hset hi ?_
    rintro rfl
    simp [hi] at hcall
  | _ => exact hi

lemma call_eq_none_of_admits (h : s.admits n l = true) (hstep : s.step dmaAddr l = some s')
    (hnone : ∀ i, n ≤ i → s.call i = none) : ∀ i, n ≤ i → s'.call i = none := by
  intro i hi
  refine call_step_of_ne hstep ?_ (hnone i hi)
  rintro a rfl
  simp only [admits, Bool.and_eq_true, decide_eq_true_eq] at h
  omega

lemma oneAtATime_of_admits (h : s.admits n l = true) (hnone : ∀ i, n ≤ i → s.call i = none) :
    s.OneAtATime l := by
  cases l with
  | enter id a =>
    rintro i cl ⟨hcall, hchan, hactive⟩
    have hin : i < n := by
      by_contra hge
      simp [hnone i (not_lt.mp hge)] at hcall
    simp only [admits, Bool.and_eq_true, List.all_eq_true, List.mem_range] at h
    have hi := h.2 i hin
    simp [hcall, hchan, hactive] at hi
  | _ => trivial

/-- A run whose calls are below `n`, with a check for `P`. -/
theorem reaches_of_admits {P : Sys → Label → Prop} {check : Sys → Label → Bool} {ls : List Label}
    (hcheck : ∀ s l, check s l = true → P s l)
    (h : runSteps (fun s l => if (s.admits n l && check s l) = true then s.step dmaAddr l else none)
      init ls = some s) :
    Reaches (step dmaAddr) (fun s l => s.OneAtATime l ∧ P s l) init s := by
  have hr : Reaches (step dmaAddr) (fun s l => (s.admits n l && check s l) = true) init s :=
    reaches_of_runSteps .refl (fun _ _ h => h) h
  refine hr.restrict (P := fun s => ∀ i, n ≤ i → s.call i = none) (fun i _ => rfl) ?_ ?_
  · intro s l s' hnone hl hstep
    rw [Bool.and_eq_true] at hl
    exact call_eq_none_of_admits hl.1 hstep hnone
  · intro s l hnone hl
    rw [Bool.and_eq_true] at hl
    exact ⟨oneAtATime_of_admits hl.1 hnone, hcheck s l hl.2⟩

lemma atRest_of_rests {c : Chan} (hinv : SysInv s) (hnone : ∀ i, n ≤ i → s.call i = none)
    (h : rests n (s.chan c) = true) : (s.chan c).AtRest := by
  simp only [rests, Bool.and_eq_true, decide_eq_true_eq, List.all_eq_true, List.mem_range] at h
  obtain ⟨⟨heng, hstatus, hcounter⟩, hzero⟩ := h
  refine ⟨heng, hstatus, hcounter, fun i => ?_, fun i => ?_⟩
  all_goals by_cases hi : i < n
  · exact (hzero i hi).1
  · exact (hinv.unborn i (hnone i (not_lt.mp hi)) c).inFlight
  · exact (hzero i hi).2
  · exact (hinv.unborn i (hnone i (not_lt.mp hi)) c).owed

lemma startsAtRest_iff (hinv : SysInv s) (hnone : ∀ i, n ≤ i → s.call i = none)
    (h : s.startsAtRest n l = true) : s.StartsAtRest l ∧ NoForeign l := by
  cases l with
  | exec id answer =>
    refine ⟨fun cl ops hcall hpc => atRest_of_rests hinv hnone ?_, trivial⟩
    simpa [startsAtRest, hcall, hpc, CallPc.ops] using h
  | dev c e =>
    have he : (!e.isForeign) = true := h
    exact ⟨trivial, (Bool.not_eq_true' _).mp he⟩
  | _ => exact ⟨trivial, trivial⟩

/-- A run whose calls are below `n` and which passes the checks, with one more for `P`. -/
theorem reaches_of_startsAtRest {P : Sys → Label → Prop} {check : Sys → Label → Bool}
    {ls : List Label} (hcheck : ∀ s l, SysInv s → (∀ i, n ≤ i → s.call i = none) →
      check s l = true → P s l)
    (h : runSteps (fun s l => if (s.admits n l && s.startsAtRest n l && check s l) = true
      then s.step dmaAddr l else none) init ls = some s) :
    Reaches (step dmaAddr) (fun s l => s.OneAtATime l ∧ s.StartsAtRest l ∧ NoForeign l ∧ P s l)
      init s := by
  have hr : Reaches (step dmaAddr) (fun s l => (s.admits n l && s.startsAtRest n l &&
      check s l) = true) init s := reaches_of_runSteps .refl (fun _ _ h => h) h
  refine hr.restrict (P := fun s => SysInv s ∧ ∀ i, n ≤ i → s.call i = none)
    ⟨.init, fun i _ => rfl⟩ ?_ ?_
  · rintro s l s' ⟨hinv, hnone⟩ hl hstep
    simp only [Bool.and_eq_true] at hl
    obtain ⟨hrest, hforeign⟩ := startsAtRest_iff hinv hnone hl.1.2
    exact ⟨hinv.step (oneAtATime_of_admits hl.1.1 hnone) hrest hforeign hstep,
      call_eq_none_of_admits hl.1.1 hstep hnone⟩
  · rintro s l ⟨hinv, hnone⟩ hl
    simp only [Bool.and_eq_true] at hl
    obtain ⟨hrest, hforeign⟩ := startsAtRest_iff hinv hnone hl.1.2
    exact ⟨oneAtATime_of_admits hl.1.1 hnone, hrest, hforeign, hcheck s l hinv hnone hl.2⟩

end Sys

/-! ## `block_c2h` for 64 bytes -/

def blockC2hArgs : CallArgs := ⟨.c2hBl, 64, 0⟩

/-- Call `id`, up to its wait. -/
def blockC2hEntry (id : ℕ) : List Label :=
  .enter id blockC2hArgs :: List.replicate 6 (.exec id (some 0))

/-- The transfer of call `id`, and a run of the interrupt handler. -/
def blockC2hTransfer (id : ℕ) : List Label :=
  [.dev .c2hBl (.issue 64), .dev .c2hBl (.count id 64 64), .dev .c2hBl .done,
    .dev .c2hBl .finish] ++ List.replicate 9 .irq

/-- Call `id` finds its flag set. -/
def blockC2hReturn (id : ℕ) : List Label :=
  [.wait id .wake, .wait id .testFlag, .wait id .readStatus] ++ List.replicate 4 (.exec id (some 0))

end FpgaPcie
