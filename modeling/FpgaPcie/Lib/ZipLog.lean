import Mathlib.Tactic

/-!
# Logs that follow a plan

A plan is a list that grows at its end, and so does the log of what has been done about it, which is never
longer. The log is read against the plan entry by entry.
-/

namespace ZipLog

variable {α β γ : Type*} {f : α → β → γ} {plan : List α} {log : List β}

/-- What is added to the plan does not change what has been done. -/
lemma zipWith_plan_append (h : log.length ≤ plan.length) (new : List α) :
    List.zipWith f (plan ++ new) log = List.zipWith f plan log := by
  induction log generalizing plan with
  | nil => rw [List.zipWith_nil_right, List.zipWith_nil_right]
  | cons b log ih =>
    cases plan with
    | nil => cases h
    | cons a plan =>
      rw [List.cons_append, List.zipWith_cons_cons, List.zipWith_cons_cons, ih (Nat.le_of_succ_le_succ h)]

/-- The next entry of the log is about the first entry of the plan that is left. -/
lemma zipWith_log_snoc {a : α} {left : List α} (h : plan.drop log.length = a :: left) (b : β) :
    List.zipWith f plan (log ++ [b]) = List.zipWith f plan log ++ [f a b] := by
  have hle : log.length ≤ plan.length := by
    by_contra hlt
    rw [List.drop_eq_nil_of_le (by omega)] at h
    cases h
  have hlen : (plan.take log.length).length = log.length := by rw [List.length_take, Nat.min_eq_left hle]
  conv_lhs => rw [← List.take_append_drop log.length plan, h]
  conv_rhs => rw [← List.take_append_drop log.length plan, h, zipWith_plan_append (by rw [hlen])]
  rw [List.zipWith_append hlen]
  simp

/-- A first part of the log against a first part of the plan. -/
lemma zipWith_begins {plan' : List α} {log' : List β} (hplan : plan <+: plan') (hlog : log <+: log') :
    List.zipWith f plan log <+: List.zipWith f plan' log' := by
  induction plan generalizing plan' log log' with
  | nil => exact List.nil_prefix
  | cons a plan ih =>
    obtain ⟨rest, rfl⟩ := hplan
    cases log with
    | nil => exact List.nil_prefix
    | cons b log =>
      obtain ⟨more, rfl⟩ := hlog
      rw [List.cons_append, List.cons_append, List.zipWith_cons_cons, List.zipWith_cons_cons,
        List.cons_prefix_cons]
      exact ⟨rfl, ih (List.prefix_append _ _) (List.prefix_append _ _)⟩

/-- A log that grows with every step grows with every run. -/
lemma prefix_of_step {l : ℕ → List α} (h : ∀ t, l t <+: l (t + 1)) {t u : ℕ} (htu : t ≤ u) :
    l t <+: l u := by
  induction u, htu using Nat.le_induction with
  | base => exact List.prefix_rfl
  | succ u htu ih => exact ih.trans (h u)

end ZipLog
