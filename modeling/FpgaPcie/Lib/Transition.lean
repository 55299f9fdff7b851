import Mathlib.Logic.Basic
import Mathlib.Tactic.Common

/-!
# Runs of a transition system

A system is a partial step function, and its runs are restricted to steps that are allowed. An
invariant of the allowed steps holds in every state that such runs reach. The last part is about
runs that are clocked: which condition on the cycles is exact for what they have to do.
-/

variable {σ ι : Type*}

/-- The states that steps which are allowed reach from `init`. -/
inductive Reaches (step : σ → ι → Option σ) (allowed : σ → ι → Prop) (init : σ) : σ → Prop
  | refl : Reaches step allowed init init
  | step {s s' : σ} {l : ι} : Reaches step allowed init s → allowed s l → step s l = some s' →
      Reaches step allowed init s'

/-- The state behind the steps `ls`, if they are all enabled. -/
def runSteps (step : σ → ι → Option σ) : σ → List ι → Option σ
  | s, [] => some s
  | s, l :: ls => (step s l).bind fun s' => runSteps step s' ls

namespace Reaches

variable {step : σ → ι → Option σ} {allowed allowed' : σ → ι → Prop} {init s : σ}

theorem mono (h : ∀ s l, allowed s l → allowed' s l) (hr : Reaches step allowed init s) :
    Reaches step allowed' init s := by
  induction hr with
  | refl => exact .refl
  | step _ ha hs ih => exact .step ih (h _ _ ha) hs

/-- What holds initially and is kept by every allowed step holds in every reached state. -/
theorem invariant {P : σ → Prop} (h0 : P init)
    (hstep : ∀ s l s', P s → allowed s l → step s l = some s' → P s')
    (hr : Reaches step allowed init s) : P s := by
  induction hr with
  | refl => exact h0
  | step _ ha hs ih => exact hstep _ _ _ ih ha hs

/-- Runs may be restricted by what holds in every state that they reach. -/
theorem restrict {P : σ → Prop} (h0 : P init)
    (hstep : ∀ s l s', P s → allowed s l → step s l = some s' → P s')
    (h : ∀ s l, P s → allowed s l → allowed' s l) (hr : Reaches step allowed init s) :
    Reaches step allowed' init s := by
  induction hr with
  | refl => exact .refl
  | step hr ha hs ih => exact .step ih (h _ _ (invariant h0 hstep hr) ha) hs

end Reaches

/-- A list of steps that pass a check which allows them is a run. -/
theorem reaches_of_runSteps {step : σ → ι → Option σ} {allowed : σ → ι → Prop}
    {check : σ → ι → Bool} {init s s' : σ} {ls : List ι} (hr : Reaches step allowed init s)
    (hcheck : ∀ s l, check s l = true → allowed s l)
    (h : runSteps (fun s l => if check s l = true then step s l else none) s ls = some s') :
    Reaches step allowed init s' := by
  induction ls generalizing s with
  | nil =>
    cases h
    exact hr
  | cons l ls ih =>
    obtain ⟨s₁, h₁, h₂⟩ := Option.bind_eq_some_iff.mp h
    dsimp only at h₁
    split_ifs at h₁ with hl
    exact ih (.step hr (hcheck s l hl) h₁) h₂

/-! ### Exact conditions -/

section Cycles

variable {P Ok Cond : ℕ → Prop}

theorem forall_of_kept (h0 : P 0) (hkept : ∀ n, P n → Cond n → P (n + 1)) (hcond : ∀ n, Cond n) (n : ℕ) :
    P n := by
  induction n with
  | zero => exact h0
  | succ n ih => exact hkept n ih (hcond n)

/-- When a cycle in which the invariant holds is right exactly under a condition, and this condition keeps
the invariant, then all cycles are right exactly when all of them meet the condition. -/
theorem forall_iff_of_kept (h0 : P 0) (hkept : ∀ n, P n → Cond n → P (n + 1))
    (hiff : ∀ n, P n → (Ok n ↔ Cond n)) : (∀ n, Ok n) ↔ ∀ n, Cond n := by
  constructor
  · intro hok
    have hinv : ∀ n, P n := forall_of_kept h0 (fun n h hok => hkept n h ((hiff n h).mp hok)) hok
    exact fun n => (hiff n (hinv n)).mp (hok n)
  · intro hcond n
    exact (hiff n (forall_of_kept h0 hkept hcond n)).mpr (hcond n)

end Cycles
