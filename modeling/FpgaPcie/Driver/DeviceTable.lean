import FpgaPcie.Driver.Probe
import FpgaPcie.Lib.Transition
import Mathlib.Data.Fintype.Basic
import Mathlib.Data.List.FinRange
import Mathlib.Logic.Function.Basic

/-!
# The table of devices

`fpga_probe` claims an ID with `atomic_xchg(&used_fpgas[i], 1)` and stores the device into `fpga_devices[i]` behind
it. `fpga_remove` clears the flag first and the pointer last: in between the ID is free, and the pointer that it
clears may be the one of the next device.
-/

namespace FpgaPcie

/-- How far the probe or the removal of a device has got, as far as the table is concerned. -/
inductive DevPhase
  | absent
  /-- in the loop over `used_fpgas`, with these IDs to go -/
  | scanning (is : List (Fin 32))
  /-- the flag is set, `fpga_devices[i] = fpdev` is next -/
  | claimed (i : Fin 32)
  /-- `fpdev->id`; none for -1 -/
  | live (id : Option (Fin 32))
  /-- `atomic_set(&used_fpgas[i], 0)` is next -/
  | releasing (i : Fin 32)
  /-- `fpga_devices[i] = NULL` is next -/
  | clearing (i : Fin 32)
  deriving DecidableEq

/-- The device has the flag of `i`. -/
def DevPhase.owns (i : Fin 32) : DevPhase → Bool
  | .claimed j | .live (some j) | .releasing j => decide (j = i)
  | .absent | .scanning _ | .live none | .clearing _ => false

/-- The pointer of the device can be in the slot of `i`. -/
def DevPhase.stored (i : Fin 32) : DevPhase → Bool
  | .live (some j) | .releasing j | .clearing j => decide (j = i)
  | .absent | .scanning _ | .live none | .claimed _ => false

variable {δ : Type*}

structure DeviceTable (δ : Type*) where
  /-- `used_fpgas` -/
  used : Fin 32 → Bool
  /-- `fpga_devices` -/
  slot : Fin 32 → Option δ
  phase : δ → DevPhase

namespace DeviceTable

def init : DeviceTable δ := ⟨fun _ => false, fun _ => none, fun _ => .absent⟩

variable (s : DeviceTable δ)

/-- No probe and no removal is in progress. -/
def Quiet : Prop := ∀ d, s.phase d = .absent ∨ ∃ id, s.phase d = .live id

/-- What the table says about the live devices. -/
structure Consistent : Prop where
  distinct : ∀ d e i, s.phase d = .live (some i) → s.phase e = .live (some i) → d = e
  stored : ∀ d i, s.phase d = .live (some i) → s.slot i = some d
  unheld : ∀ i, (∀ d, s.phase d ≠ .live (some i)) → s.slot i = none ∧ s.used i = false

/-- A removal that clears its slot does not find another live device behind it. -/
def Undisturbed (d : δ) : Prop := ∀ i, s.phase d = .clearing i → ∀ e, s.phase e ≠ .live (some i)

instance [Fintype δ] (d : δ) : Decidable (s.Undisturbed d) :=
  inferInstanceAs (Decidable (∀ i, s.phase d = .clearing i → ∀ e, s.phase e ≠ .live (some i)))

structure Inv : Prop where
  exclusive : ∀ d e i, (s.phase d).owns i = true → (s.phase e).owns i = true → d = e
  used : ∀ i, s.used i = true ↔ ∃ d, (s.phase d).owns i = true
  live : ∀ d i, s.phase d = .live (some i) → s.slot i = some d
  slot : ∀ d i, s.slot i = some d → (s.phase d).stored i = true

lemma Inv.init : (init : DeviceTable δ).Inv where
  exclusive := by
    intro d e i h
    cases h
  used := by
    intro i
    simp [DeviceTable.init, DevPhase.owns]
  live := by
    intro d i h
    cases h
  slot := by
    intro d i h
    cases h

variable {s} in
/-- With no call in progress, the table is as the live devices have it. -/
theorem Inv.consistent (h : s.Inv) (hquiet : s.Quiet) : s.Consistent where
  distinct d e i hd he := h.exclusive d e i (by simp [hd, DevPhase.owns]) (by simp [he, DevPhase.owns])
  stored := h.live
  unheld i hi := by
    constructor
    · rw [Option.eq_none_iff_forall_ne_some]
      intro d hd
      have hold := h.slot d i hd
      obtain hphase | ⟨id, hphase⟩ := hquiet d
      · rw [hphase] at hold
        cases hold
      · rw [hphase] at hold
        cases id with
        | none => cases hold
        | some j =>
          obtain rfl : j = i := by simpa [DevPhase.stored] using hold
          exact hi d hphase
    · rw [Bool.eq_false_iff]
      intro hused
      obtain ⟨d, hd⟩ := (h.used i).mp hused
      obtain hphase | ⟨id, hphase⟩ := hquiet d
      · rw [hphase] at hd
        cases hd
      · rw [hphase] at hd
        cases id with
        | none => cases hd
        | some j =>
          obtain rfl : j = i := by simpa [DevPhase.owns] using hd
          exact hi d hphase

variable [DecidableEq δ]

def enter (d : δ) (ph : DevPhase) : DeviceTable δ := { s with phase := Function.update s.phase d ph }

@[simp] lemma enter_used (d : δ) (ph : DevPhase) : (s.enter d ph).used = s.used := rfl

@[simp] lemma enter_slot (d : δ) (ph : DevPhase) : (s.enter d ph).slot = s.slot := rfl

@[simp] lemma enter_phase (d : δ) (ph : DevPhase) : (s.enter d ph).phase = Function.update s.phase d ph := rfl

/-- The next step of device `d`: an absent device is probed, a live one removed. The probe and the removal of one
device exclude each other. -/
def step (d : δ) : DeviceTable δ :=
  match s.phase d with
  | .absent => s.enter d (.scanning (List.finRange 32))
  | .scanning [] => s.enter d (.live none)
  | .scanning (i :: is) =>
    { s with used := Function.update s.used i true }.enter d (if s.used i then .scanning is else .claimed i)
  | .claimed i => { s with slot := Function.update s.slot i (some d) }.enter d (.live (some i))
  | .live none => s.enter d .absent
  | .live (some i) => s.enter d (.releasing i)
  | .releasing i => { s with used := Function.update s.used i false }.enter d (.clearing i)
  | .clearing i => { s with slot := Function.update s.slot i none }.enter d .absent

variable {s : DeviceTable δ}

/-- A step that does not change which flag and which slot the device has. -/
lemma Inv.move (h : s.Inv) {d : δ} {ph : DevPhase} (howns : ∀ i, ph.owns i = (s.phase d).owns i)
    (hstored : ∀ i, (s.phase d).stored i = true → ph.stored i = true) (hlive : ∀ i, ph ≠ .live (some i)) :
    (s.enter d ph).Inv := by
  have hphase : ∀ e i, ((s.enter d ph).phase e).owns i = (s.phase e).owns i := by
    intro e i
    by_cases he : e = d
    · subst he
      simp [howns]
    · simp [he]
  constructor
  case exclusive =>
    intro e f i he hf
    rw [hphase] at he hf
    exact h.exclusive e f i he hf
  case used =>
    intro i
    simp only [hphase]
    exact h.used i
  case live =>
    intro e i he
    by_cases hed : e = d
    · subst hed
      exact absurd he (by simpa using hlive i)
    · exact h.live e i (by simpa [hed] using he)
  case slot =>
    intro e i he
    have hold := h.slot e i he
    by_cases hed : e = d
    · subst hed
      simpa using hstored i hold
    · simpa [hed] using hold

lemma Inv.claim (h : s.Inv) {d : δ} {i : Fin 32} {is : List (Fin 32)} (hd : s.phase d = .scanning (i :: is))
    (hfree : s.used i = false) :
    ({ s with used := Function.update s.used i true }.enter d (.claimed i)).Inv := by
  have hnone : ∀ e, (s.phase e).owns i = false := by
    intro e
    rw [Bool.eq_false_iff]
    intro he
    rw [(h.used i).mpr ⟨e, he⟩] at hfree
    cases hfree
  have howns : ∀ e j, ((Function.update s.phase d (.claimed i)) e).owns j = true ↔
      e = d ∧ j = i ∨ e ≠ d ∧ (s.phase e).owns j = true := by
    intro e j
    by_cases he : e = d
    · subst he
      simpa [DevPhase.owns] using eq_comm
    · simp [he]
  constructor
  case exclusive =>
    intro e f j he hf
    rcases (howns e j).mp he with ⟨rfl, rfl⟩ | ⟨-, he'⟩
    · rcases (howns f j).mp hf with ⟨rfl, -⟩ | ⟨-, hf'⟩
      · rfl
      · exact absurd hf' (by simp [hnone])
    · rcases (howns f j).mp hf with ⟨-, rfl⟩ | ⟨-, hf'⟩
      · exact absurd he' (by simp [hnone])
      · exact h.exclusive e f j he' hf'
  case used =>
    intro j
    simp only [enter_used, enter_phase, howns]
    by_cases hj : j = i
    · subst hj
      simp
    · rw [Function.update_of_ne hj, h.used j]
      constructor
      · rintro ⟨e, he⟩
        have hed : e ≠ d := by
          rintro rfl
          rw [hd] at he
          cases he
        exact ⟨e, .inr ⟨hed, he⟩⟩
      · rintro ⟨e, ⟨-, hji⟩ | ⟨-, he⟩⟩
        · exact absurd hji hj
        · exact ⟨e, he⟩
  case live =>
    intro e j he
    by_cases hed : e = d
    · subst hed
      simp at he
    · exact h.live e j (by simpa [hed] using he)
  case slot =>
    intro e j he
    have hold := h.slot e j he
    by_cases hed : e = d
    · subst hed
      rw [hd] at hold
      cases hold
    · simpa [hed] using hold

lemma Inv.store (h : s.Inv) {d : δ} {i : Fin 32} (hd : s.phase d = .claimed i) :
    ({ s with slot := Function.update s.slot i (some d) }.enter d (.live (some i))).Inv := by
  have howns : ∀ e j, ((Function.update s.phase d (.live (some i))) e).owns j = (s.phase e).owns j := by
    intro e j
    by_cases he : e = d
    · subst he
      simp [DevPhase.owns, hd]
    · simp [he]
  constructor
  case exclusive =>
    intro e f j he hf
    rw [enter_phase, howns] at he hf
    exact h.exclusive e f j he hf
  case used =>
    intro j
    simp only [enter_used, enter_phase, howns]
    exact h.used j
  case live =>
    intro e j he
    by_cases hed : e = d
    · subst hed
      have hij : i = j := by simpa using he
      subst hij
      simp
    · have hlive : s.phase e = .live (some j) := by simpa [hed] using he
      have hj : j ≠ i := by
        rintro rfl
        exact hed (h.exclusive e d j (by simp [hlive, DevPhase.owns]) (by simp [hd, DevPhase.owns]))
      simpa [hj] using h.live e j hlive
  case slot =>
    intro e j he
    by_cases hj : j = i
    · subst hj
      have hed : e = d := by simpa [eq_comm] using he
      subst hed
      simp [DevPhase.stored]
    · have hold := h.slot e j (by simpa [hj] using he)
      by_cases hed : e = d
      · subst hed
        rw [hd] at hold
        cases hold
      · simpa [hed] using hold

lemma Inv.release (h : s.Inv) {d : δ} {i : Fin 32} (hd : s.phase d = .releasing i) :
    ({ s with used := Function.update s.used i false }.enter d (.clearing i)).Inv := by
  have hdi : (s.phase d).owns i = true := by simp [hd, DevPhase.owns]
  have howns : ∀ e j, ((Function.update s.phase d (.clearing i)) e).owns j = true ↔
      j ≠ i ∧ (s.phase e).owns j = true := by
    intro e j
    by_cases he : e = d
    · subst he
      simp [DevPhase.owns, hd, eq_comm]
    · have hne : (s.phase e).owns j = true → j ≠ i := by
        rintro hej rfl
        exact he (h.exclusive e d j hej hdi)
      simpa [he] using hne
  constructor
  case exclusive =>
    intro e f j he hf
    exact h.exclusive e f j ((howns e j).mp he).2 ((howns f j).mp hf).2
  case used =>
    intro j
    simp only [enter_used, enter_phase, howns]
    by_cases hj : j = i
    · subst hj
      simp
    · simpa [hj] using h.used j
  case live =>
    intro e j he
    by_cases hed : e = d
    · subst hed
      simp at he
    · exact h.live e j (by simpa [hed] using he)
  case slot =>
    intro e j he
    have hold := h.slot e j he
    by_cases hed : e = d
    · subst hed
      simpa [DevPhase.stored, hd] using hold
    · simpa [hed] using hold

lemma Inv.clear (h : s.Inv) {d : δ} {i : Fin 32} (hd : s.phase d = .clearing i)
    (hi : ∀ e, s.phase e ≠ .live (some i)) :
    ({ s with slot := Function.update s.slot i none }.enter d .absent).Inv := by
  have howns : ∀ e j, ((Function.update s.phase d .absent) e).owns j = (s.phase e).owns j := by
    intro e j
    by_cases he : e = d
    · subst he
      simp [DevPhase.owns, hd]
    · simp [he]
  constructor
  case exclusive =>
    intro e f j he hf
    rw [enter_phase, howns] at he hf
    exact h.exclusive e f j he hf
  case used =>
    intro j
    simp only [enter_used, enter_phase, howns]
    exact h.used j
  case live =>
    intro e j he
    by_cases hed : e = d
    · subst hed
      simp at he
    · have hlive : s.phase e = .live (some j) := by simpa [hed] using he
      have hj : j ≠ i := by
        rintro rfl
        exact hi e hlive
      simpa [hj] using h.live e j hlive
  case slot =>
    intro e j he
    by_cases hj : j = i
    · subst hj
      simp at he
    · have hold := h.slot e j (by simpa [hj] using he)
      by_cases hed : e = d
      · subst hed
        simp [hd, DevPhase.stored, Ne.symm hj] at hold
      · simpa [hed] using hold

theorem Inv.step (h : s.Inv) {d : δ} (hd : s.Undisturbed d) : (s.step d).Inv := by
  rw [DeviceTable.step]
  cases hphase : s.phase d with
  | absent => exact h.move (by simp [hphase, DevPhase.owns]) (by simp [hphase, DevPhase.stored]) (by simp)
  | scanning is =>
    cases is with
    | nil => exact h.move (by simp [hphase, DevPhase.owns]) (by simp [hphase, DevPhase.stored]) (by simp)
    | cons i is =>
      dsimp only
      cases hused : s.used i with
      | false => exact h.claim hphase hused
      | true =>
        have hsame : Function.update s.used i true = s.used := by
          rw [← hused]
          exact Function.update_eq_self i s.used
        rw [hsame, if_pos rfl]
        exact h.move (by simp [hphase, DevPhase.owns]) (by simp [hphase, DevPhase.stored]) (by simp)
  | claimed i => exact h.store hphase
  | live id =>
    cases id with
    | none => exact h.move (by simp [hphase, DevPhase.owns]) (by simp [hphase, DevPhase.stored]) (by simp)
    | some i => exact h.move (by simp [hphase, DevPhase.owns]) (by simp [hphase, DevPhase.stored]) (by simp)
  | releasing i => exact h.release hphase
  | clearing i => exact h.clear hphase (hd i hphase)

/-- The step keeps the pointers of the live devices only under this condition. -/
theorem live_kept_iff (h : s.Inv) {d : δ} :
    (∀ e i, (s.step d).phase e = .live (some i) → (s.step d).slot i = some e) ↔ s.Undisturbed d := by
  constructor
  · intro hlive i hd e he
    have hed : e ≠ d := by
      rintro rfl
      rw [hd] at he
      cases he
    have hstep : s.step d = { s with slot := Function.update s.slot i none }.enter d .absent := by
      rw [DeviceTable.step, hd]
    have hslot := hlive e i (by simp [hstep, hed, he])
    simp [hstep] at hslot
  · intro hd
    exact (h.step hd).live

/-- In every run whose removals are not disturbed, the table is consistent whenever no call is in progress. -/
theorem table_consistent (h : Reaches (fun s d => some (step s d)) Undisturbed init s) (hquiet : s.Quiet) :
    s.Consistent := by
  have hinv : s.Inv := by
    apply h.invariant .init
    intro s d s' hs hd hstep
    cases hstep
    exact hs.step hd
  exact hinv.consistent hquiet

/-- Two devices come up, and the first one goes. -/
theorem table_consistent_two : ∃ s : DeviceTable Bool, s.phase false = .absent ∧ s.phase true = .live (some 1) ∧
    s.Consistent := by
  have hrun : (runSteps (fun s d => if decide (s.Undisturbed d) = true then some (step s d) else none)
      (init : DeviceTable Bool) [false, true, false, false, true, true, true, false, false, false]).any (fun s =>
        decide (s.phase false = .absent ∧ s.phase true = .live (some 1))) = true := by
    decide +kernel
  obtain ⟨s, hs, hphase⟩ := (Option.any_eq_true _ _).mp hrun
  have hphase := of_decide_eq_true hphase
  have hreach := reaches_of_runSteps .refl (fun s d h => of_decide_eq_true h) hs
  refine ⟨s, hphase.1, hphase.2, table_consistent hreach ?_⟩
  intro d
  cases d with
  | false => exact .inl hphase.1
  | true => exact .inr ⟨_, hphase.2⟩

/-- While the first device is removed, the second one takes the ID, and loses its pointer. -/
theorem removal_erases_slot : ∃ s : DeviceTable Bool,
    Reaches (fun s d => some (step s d)) (fun _ _ => True) init s ∧ s.Quiet ∧ ¬s.Consistent := by
  have hrun : (runSteps (fun s d => if true = true then some (step s d) else none)
      (init : DeviceTable Bool) [false, false, false, false, false, true, true, true, false]).any (fun s =>
        decide ((s.phase false = .absent ∧ s.phase true = .live (some 0)) ∧ s.slot 0 = none)) = true := by
    decide +kernel
  obtain ⟨s, hs, hend⟩ := (Option.any_eq_true _ _).mp hrun
  obtain ⟨hphase, hslot⟩ := of_decide_eq_true hend
  refine ⟨s, reaches_of_runSteps .refl (fun _ _ _ => trivial) hs, ?_, fun h => ?_⟩
  · intro d
    cases d with
    | false => exact .inl hphase.1
    | true => exact .inr ⟨_, hphase.2⟩
  · have hstored := h.stored true 0 hphase.2
    rw [hslot] at hstored
    cases hstored

/-! ### A probe on its own -/

/-- The device with the ID that the loop has found. -/
def register (s : DeviceTable δ) (d : δ) : Option (Fin 32) → DeviceTable δ
  | none => s.enter d (.live none)
  | some i =>
    { s with used := Function.update s.used i true, slot := Function.update s.slot i (some d) }.enter d
      (.live (some i))

/-- With no other call in between, the loop claims the first free ID. -/
theorem probe_alone {d : δ} {is : List (Fin 32)} (hd : s.phase d = .scanning is) :
    ∃ n, (fun s => step s d)^[n] s = s.register d (is.find? fun i => !s.used i) := by
  induction is generalizing s with
  | nil =>
    refine ⟨1, ?_⟩
    simp [step, hd, register]
  | cons i is ih =>
    cases hused : s.used i with
    | true =>
      have hsame : Function.update s.used i true = s.used := by
        rw [← hused]
        exact Function.update_eq_self i s.used
      have hstep : s.step d = s.enter d (.scanning is) := by
        simp [step, hd, hused, hsame]
      obtain ⟨n, hn⟩ := ih (s := s.enter d (.scanning is)) (by simp)
      refine ⟨n + 1, ?_⟩
      rw [Function.iterate_succ_apply, hstep, hn]
      cases hfind : is.find? fun i => !s.used i <;> simp [register, hused, hfind, enter]
    | false =>
      refine ⟨2, ?_⟩
      simp [step, hd, hused, register, enter]

end DeviceTable

end FpgaPcie
