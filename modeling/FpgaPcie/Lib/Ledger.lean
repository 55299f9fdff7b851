import FpgaPcie.Lib.Transition
import Mathlib.Data.List.Count
import Mathlib.Data.List.Range

/-!
# Resource ledgers

A trace of acquisitions, uses and releases is read from the point of view of each resource: it is
acquired at most once, used and released only while it is held, and held no longer at the end. Such a
trace is settled, and each acquired resource is released exactly once.
-/

namespace Ledger

variable {ρ : Type*}

inductive Event (ρ : Type*)
  | acquire (r : ρ)
  | use (r : ρ)
  | release (r : ρ)
  deriving DecidableEq

/-- The life of one resource. -/
inductive Status
  | fresh
  | held
  | gone
  deriving DecidableEq

variable [DecidableEq ρ]

/-- What an event means for the resource `r`; none is a misuse of it. -/
def act (r : ρ) (s : Status) : Event ρ → Option Status
  | .acquire r' => if r' = r then if s = .fresh then some .held else none else some s
  | .use r' => if r' = r then if s = .held then some .held else none else some s
  | .release r' => if r' = r then if s = .held then some .gone else none else some s

/-- The status of `r` behind the events `es`. -/
def follow (r : ρ) (s : Status) (es : List (Event ρ)) : Option Status := runSteps (act r) s es

/-- Everything that is acquired is given back. -/
def Settled (es : List (Event ρ)) : Prop := ∀ r, ∃ s, follow r .fresh es = some s ∧ s ≠ .held

variable {r : ρ} {s : Status}

@[simp] lemma follow_nil : follow r s [] = some s := rfl

@[simp] lemma follow_cons (e : Event ρ) (es : List (Event ρ)) :
    follow r s (e :: es) = (act r s e).bind fun s => follow r s es := rfl

@[simp] lemma follow_append (es fs : List (Event ρ)) :
    follow r s (es ++ fs) = (follow r s es).bind fun s => follow r s fs := by
  induction es generalizing s with
  | nil => rfl
  | cons e es ih => simp only [List.cons_append, follow_cons, ih, Option.bind_assoc]

/-- A part of the trace that does not change the status of `r`. -/
lemma follow_flatMap_same {α : Type*} {l : List α} {f : α → List (Event ρ)}
    (h : ∀ a ∈ l, follow r s (f a) = some s) : follow r s (l.flatMap f) = some s := by
  induction l with
  | nil => rfl
  | cons a l ih =>
    rw [List.flatMap_cons, follow_append, h a List.mem_cons_self]
    exact ih fun b hb => h b (List.mem_cons_of_mem a hb)

/-- A loop in which only the round of `a` matters to `r`. -/
lemma follow_flatMap_once {α : Type*} [DecidableEq α] {l : List α} (hl : l.Nodup)
    {f : α → List (Event ρ)} {a : α} (h : ∀ b, b ≠ a → ∀ s, follow r s (f b) = some s) :
    follow r s (l.flatMap f) = if a ∈ l then follow r s (f a) else some s := by
  induction l generalizing s with
  | nil => rfl
  | cons b l ih =>
    rw [List.nodup_cons] at hl
    rw [List.flatMap_cons, follow_append]
    by_cases hb : b = a
    · subst hb
      rw [if_pos List.mem_cons_self]
      cases follow r s (f b) with
      | none => rfl
      | some s' =>
        rw [Option.bind_some, ih hl.2, if_neg hl.1]
    · rw [h b hb, Option.bind_some, ih hl.2]
      simp [Ne.symm hb]

/-- A loop over the first numbers in which only the round `j` matters to `r`. -/
lemma follow_flatMap_range {f : ℕ → List (Event ρ)} {j : ℕ}
    (h : ∀ i, i ≠ j → ∀ s, follow r s (f i) = some s) (n : ℕ) :
    follow r s ((List.range n).flatMap f) = if j < n then follow r s (f j) else some s := by
  rw [follow_flatMap_once List.nodup_range h]
  simp

/-! ### Counts -/

/-- How often an acquisition is still to come. -/
def Status.due : Status → ℕ
  | .fresh => 1
  | _ => 0

/-- How often a release is still to come. -/
def Status.owed : Status → ℕ
  | .held => 1
  | _ => 0

lemma act_count {s' : Status} {e : Event ρ} (h : act r s e = some s') :
    ([e].count (.acquire r) + s'.due = s.due) ∧
      ([e].count (.release r) + s'.owed = s.owed + [e].count (.acquire r)) := by
  cases e with
  | acquire r' =>
    by_cases hr : r' = r
    · subst hr
      cases s <;> simp [act] at h
      subst h
      simp [Status.due, Status.owed]
    · simp only [act, if_neg hr, Option.some.injEq] at h
      subst h
      simp [hr]
  | use r' =>
    have hs : s' = s := by
      cases s <;> by_cases hr : r' = r <;> simp [act, hr] at h <;> exact h.symm
    subst hs
    simp
  | release r' =>
    by_cases hr : r' = r
    · subst hr
      cases s <;> simp [act] at h
      subst h
      simp [Status.due, Status.owed]
    · simp only [act, if_neg hr, Option.some.injEq] at h
      subst h
      simp [hr]

lemma follow_count {s' : Status} {es : List (Event ρ)} (h : follow r s es = some s') :
    es.count (.acquire r) + s'.due = s.due ∧
      es.count (.release r) + s'.owed = s.owed + es.count (.acquire r) := by
  induction es generalizing s with
  | nil =>
    cases h
    simp
  | cons e es ih =>
    obtain ⟨s₁, h₁, h₂⟩ := Option.bind_eq_some_iff.mp h
    have hhead := act_count h₁
    have htail := ih h₂
    rw [← List.singleton_append, List.count_append, List.count_append]
    omega

/-- Each acquired resource is released exactly once. -/
theorem Settled.count {es : List (Event ρ)} (h : Settled es) (r : ρ) :
    es.count (.acquire r) ≤ 1 ∧ es.count (.release r) = es.count (.acquire r) := by
  obtain ⟨s, hs, hne⟩ := h r
  have hcount := follow_count hs
  cases s <;> simp_all [Status.due, Status.owed]

end Ledger
