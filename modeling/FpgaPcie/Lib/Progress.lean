import Mathlib.Order.Monotone.Basic
import Mathlib.Tactic

/-!
# Eventual quiescence of bounded counters

A liveness argument for a machine whose progress is counted by finitely many bounded
counters: from some time on no counter moves, and a machine whose counters do not move any
more is either done or stuck. The file gives the first half; the second half is a case
analysis about the machine. The second part chains such arguments.
-/

namespace Progress

/-- A bounded counter that never decreases stops moving. -/
theorem eventually_const {f : ℕ → ℕ} (hf : Monotone f) {B : ℕ} (hB : ∀ t, f t ≤ B) :
    ∃ t₀, ∀ t, t₀ ≤ t → f t = f t₀ := by
  -- the room left below `B` shrinks each time the counter moves
  suffices h : ∀ room s, B - f s = room → ∃ t₀, ∀ t, t₀ ≤ t → f t = f t₀ from h _ 0 rfl
  intro room
  induction room using Nat.strong_induction_on with
  | _ room ih =>
    intro s hs
    by_cases hmove : ∃ t, s ≤ t ∧ f s < f t
    · obtain ⟨t, -, hlt⟩ := hmove
      have hb := hB t
      exact ih (B - f t) (by omega) t rfl
    · refine ⟨s, fun t ht => ?_⟩
      have hle := hf ht
      have hnot : ¬f s < f t := fun hlt => hmove ⟨t, ht, hlt⟩
      omega

/-- What counts up to a bound happens only finitely often. -/
theorem events_stop {f : ℕ → ℕ} {e : ℕ → Bool} {t B : ℕ} (hstep : ∀ u, t ≤ u → f (u + 1) = f u + (e u).toNat)
    (hB : ∀ u, t ≤ u → f u ≤ B) : ∃ v, t ≤ v ∧ ∀ u, v ≤ u → e u = false := by
  have hmono : Monotone fun d => f (t + d) := by
    apply monotone_nat_of_le_succ
    intro d
    show f (t + d) ≤ f (t + d + 1)
    rw [hstep (t + d) (Nat.le_add_right t d)]
    exact Nat.le_add_right _ _
  obtain ⟨d, hconst⟩ := eventually_const hmono fun d => hB (t + d) (Nat.le_add_right t d)
  refine ⟨t + d, Nat.le_add_right t d, fun u hu => ?_⟩
  obtain ⟨k, rfl⟩ := Nat.exists_eq_add_of_le hu
  have hthis := hconst (d + k) (Nat.le_add_right d k)
  have hnext := hconst (d + k + 1) (by omega)
  have hsucc := hstep (t + d + k) (by omega)
  rw [← Nat.add_assoc] at hthis
  rw [← Nat.add_assoc, ← Nat.add_assoc] at hnext
  cases he : e (t + d + k) with
  | false => rfl
  | true =>
    rw [he, Bool.toNat_true] at hsucc
    omega

/-! ### Leads to -/

/-- Whenever `P` holds, `Q` holds at that time or later. -/
def LeadsTo (P Q : ℕ → Prop) : Prop := ∀ t, P t → ∃ u, t ≤ u ∧ Q u

variable {P Q R : ℕ → Prop}

lemma LeadsTo.trans (hpq : LeadsTo P Q) (hqr : LeadsTo Q R) : LeadsTo P R := by
  intro t ht
  obtain ⟨u, hu, hqu⟩ := hpq t ht
  obtain ⟨v, hv, hrv⟩ := hqr u hqu
  exact ⟨v, hu.trans hv, hrv⟩

lemma leadsTo_of_step (h : ∀ t, P t → Q (t + 1)) : LeadsTo P Q := by
  intro t ht
  exact ⟨t + 1, Nat.le_succ t, h t ht⟩

/-- What holds until an event that is bound to come, and turns into `Q` with it, leads to `Q`. -/
lemma leadsTo_of_event {E : ℕ → Prop} (hstay : ∀ t, P t → ¬E t → P (t + 1))
    (hgo : ∀ t, P t → E t → Q (t + 1)) (hevent : ∀ t, P t → ∃ u, t ≤ u ∧ E u) : LeadsTo P Q := by
  intro t ht
  by_contra hnone
  have hforever : ∀ u, t ≤ u → P u ∧ ¬E u := by
    have hno : ∀ u, t ≤ u → P u → ¬E u := fun u hu hp he =>
      hnone ⟨u + 1, Nat.le_succ_of_le hu, hgo u hp he⟩
    intro u hu
    induction hu with
    | refl => exact ⟨ht, hno t le_rfl ht⟩
    | @step u hu ih =>
      have hp := hstay u ih.1 ih.2
      exact ⟨hp, hno (u + 1) (Nat.le_succ_of_le hu) hp⟩
  obtain ⟨u, hu, he⟩ := hevent t ht
  exact (hforever u hu).2 he

/-! ### Counted transfers -/

/-- A machine that is busy until its `N`-th step, and bound to make another one as long as it is busy,
makes that step. -/
theorem finishes (busy acc : ℕ → Prop) (count : ℕ → ℕ) (N : ℕ)
    (hwait : ∀ t, busy t → ¬acc t → busy (t + 1) ∧ count (t + 1) = count t)
    (hacc : ∀ t, busy t → acc t → count (t + 1) = count t + 1 ∧ (count t + 1 < N → busy (t + 1)))
    (hgranted : ∀ t, busy t → ∃ u, t ≤ u ∧ (acc u ∨ ¬busy u)) {t₀ : ℕ} (h₀ : busy t₀) (hlt : count t₀ < N) :
    ∃ u, t₀ ≤ u ∧ busy u ∧ acc u ∧ count u + 1 = N := by
  have hnext : ∀ k, LeadsTo (fun t => busy t ∧ count t = k)
      (fun t => ∃ u, t = u + 1 ∧ busy u ∧ acc u ∧ count u = k) := by
    intro k
    refine leadsTo_of_event (E := fun t => acc t ∨ ¬busy t) ?_ ?_ fun t ht => hgranted t ht.1
    · rintro t ⟨hbusy, rfl⟩ hno
      exact hwait t hbusy fun hyes => hno (.inl hyes)
    · rintro t ⟨hbusy, rfl⟩ hyes
      exact ⟨t, rfl, hbusy, hyes.resolve_right (not_not_intro hbusy), rfl⟩
  -- the steps that are left go down
  induction hleft : N - count t₀ generalizing t₀ with
  | zero => omega
  | succ left ih =>
    obtain ⟨v, hv, u, rfl, hbusy, hyes, hcount⟩ := hnext _ t₀ ⟨h₀, rfl⟩
    obtain ⟨hone, hstay⟩ := hacc u hbusy hyes
    have hu : t₀ ≤ u := by
      by_contra hlt'
      obtain rfl : t₀ = u + 1 := by omega
      omega
    by_cases hmore : count u + 1 < N
    · obtain ⟨w, hw, hrest⟩ := ih (hstay hmore) (by omega) (by omega)
      exact ⟨w, by omega, hrest⟩
    · exact ⟨u, hu, hbusy, hyes, by omega⟩

end Progress
