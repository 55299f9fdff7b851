import Mathlib.Algebra.BigOperators.Intervals
import Mathlib.Order.Bounds.Basic
import Mathlib.Tactic

/-!
# The cycle in which something comes

A run brings `f n` units in cycle `n`. From a cycle on, the `k`-th of them comes in one cycle, the first
behind which there are `k`. The file compares two such first cycles.
-/

namespace Arrival

variable {f : ℕ → ℕ} {P R : ℕ → Prop} {a k m n : ℕ}

/-- The units of the cycles from `a` up to `n`. -/
def upTo (f : ℕ → ℕ) (a n : ℕ) : ℕ := ∑ j ∈ Finset.Ico a n, f j

/-- The `k`-th unit from cycle `a` on comes in cycle `n`. -/
def Comes (f : ℕ → ℕ) (a k n : ℕ) : Prop := upTo f a n < k ∧ k ≤ upTo f a (n + 1)

/-- `P` in no cycle from `a` up to `n`. -/
def NotYet (a : ℕ) (P : ℕ → Prop) (n : ℕ) : Prop := ∀ j, a ≤ j → j < n → ¬P j

/-- From cycle `a` on, `n` is the first with `P`. -/
structure First (a : ℕ) (P : ℕ → Prop) (n : ℕ) : Prop where
  le : a ≤ n
  notYet : NotYet a P n
  now : P n

@[simp] lemma upTo_self (f : ℕ → ℕ) (a : ℕ) : upTo f a a = 0 := by simp [upTo]

lemma upTo_of_le (h : n ≤ a) : upTo f a n = 0 := by
  rw [upTo, Finset.Ico_eq_empty_of_le h, Finset.sum_empty]

lemma upTo_succ (h : a ≤ n) : upTo f a (n + 1) = upTo f a n + f n := Finset.sum_Ico_succ_top h f

lemma upTo_mul (c : ℕ) : upTo (fun n => c * f n) a n = c * upTo f a n := (Finset.mul_sum _ _ _).symm

lemma upTo_mono (h : m ≤ n) : upTo f a m ≤ upTo f a n :=
  Finset.sum_le_sum_of_subset (Finset.Ico_subset_Ico_right h)

lemma Comes.le (h : Comes f a k n) : a ≤ n := by
  by_contra hlt
  have hzero : upTo f a (n + 1) = 0 := upTo_of_le (by omega)
  have hlow := h.1
  have hhigh := h.2
  omega

/-! ### First cycles -/

lemma NotYet.mono (h : NotYet a P n) (hm : m ≤ n) : NotYet a P m := fun j ha hj => h j ha (by omega)

lemma notYet_self : NotYet a P a := fun _ ha hj => absurd ha (by omega)

lemma notYet_succ (ha : a ≤ n) : NotYet a P (n + 1) ↔ NotYet a P n ∧ ¬P n := by
  constructor
  · intro h
    exact ⟨h.mono (Nat.le_succ n), h n ha (Nat.lt_succ_self n)⟩
  · rintro ⟨h, hn⟩ j hj hlt
    rcases Nat.lt_succ_iff_lt_or_eq.mp hlt with hlt | rfl
    · exact h j hj hlt
    · exact hn

/-- What holds in some cycle holds in a first one. -/
lemma exists_first (ha : a ≤ n) (hn : P n) : ∃ j, j ≤ n ∧ First a P j := by
  induction n using Nat.strong_induction_on with
  | _ n ih =>
    by_cases hall : NotYet a P n
    · exact ⟨n, le_rfl, ha, hall, hn⟩
    · simp only [NotYet, not_forall, not_not] at hall
      obtain ⟨j, hj, hlt, hP⟩ := hall
      obtain ⟨i, hi, hfirst⟩ := ih j hlt hj hP
      exact ⟨i, by omega, hfirst⟩

/-- Two things come first in the same cycle exactly when, until the one has come, they come together. -/
theorem first_iff_first : (∀ n, First a R n ↔ First a P n) ↔
    ∀ n, a ≤ n → NotYet a P n → (R n ↔ P n) := by
  constructor
  · intro h n ha hnot
    constructor
    · intro hR
      obtain ⟨j, hj, hfirst⟩ := exists_first ha hR
      have hP := ((h j).mp hfirst).now
      rcases hj.lt_or_eq with hlt | rfl
      · exact absurd hP (hnot j hfirst.le hlt)
      · exact hP
    · intro hP
      exact ((h n).mpr ⟨ha, hnot, hP⟩).now
  · intro h n
    -- up to the first `R` there is no `P` either
    have hnone : NotYet a R n → NotYet a P n := by
      intro hnot j hj hlt hP
      obtain ⟨i, hi, hfirst⟩ := exists_first hj hP
      exact hnot i hfirst.le (by omega) ((h i hfirst.le hfirst.notYet).mpr hfirst.now)
    constructor
    · intro hR
      have hnot := hnone hR.notYet
      exact ⟨hR.le, hnot, (h n hR.le hnot).mp hR.now⟩
    · intro hP
      refine ⟨hP.le, fun j hj hlt hR => ?_, (h n hP.le hP.notYet).mpr hP.now⟩
      exact hP.notYet j hj hlt ((h j hj (hP.notYet.mono hlt.le)).mp hR)

/-- What is seen a cycle late comes first a cycle late. -/
lemma first_succ (ha : ¬P a) : First a P (n + 1) ↔ First a (fun n => P (n + 1)) n := by
  constructor
  · rintro ⟨hle, hnot, hP⟩
    have han : a ≤ n := by
      by_contra hlt
      obtain rfl : a = n + 1 := by omega
      exact ha hP
    exact ⟨han, fun j hj hlt => hnot (j + 1) (by omega) (by omega), hP⟩
  · rintro ⟨hle, hnot, hP⟩
    refine ⟨by omega, fun j hj hlt => ?_, hP⟩
    rcases hj.eq_or_lt with rfl | hlt'
    · exact ha
    · obtain ⟨i, rfl⟩ : ∃ i, j = i + 1 := ⟨j - 1, by omega⟩
      exact hnot i (by omega) (by omega)

theorem first_succ_iff (hP : ¬P a) (hR : ¬R a) : (∀ n, First a R n ↔ First a P n) ↔
    ∀ n, First a (fun n => R (n + 1)) n ↔ First a (fun n => P (n + 1)) n := by
  constructor
  · intro h n
    rw [← first_succ hP, ← first_succ hR]
    exact h (n + 1)
  · intro h n
    cases n with
    | zero =>
      constructor
      · intro hfirst
        obtain rfl := Nat.le_zero.mp hfirst.le
        exact absurd hfirst.now hR
      · intro hfirst
        obtain rfl := Nat.le_zero.mp hfirst.le
        exact absurd hfirst.now hP
    | succ n =>
      rw [first_succ hP, first_succ hR]
      exact h n

/-! ### Counted units -/

/-- The `k`-th unit comes in the first cycle behind which there are `k`. -/
theorem first_upTo (hk : 0 < k) : First a (fun n => k ≤ upTo f a (n + 1)) n ↔ Comes f a k n := by
  constructor
  · rintro ⟨hle, hnot, hnow⟩
    refine ⟨?_, hnow⟩
    rcases hle.eq_or_lt with rfl | hlt
    · rw [upTo_self]
      exact hk
    · obtain ⟨j, rfl⟩ : ∃ j, n = j + 1 := ⟨n - 1, by omega⟩
      exact not_le.mp (hnot j (by omega) (by omega))
  · intro h
    refine ⟨h.le, fun j _ hlt => ?_, h.2⟩
    exact not_le.mpr ((upTo_mono (show j + 1 ≤ n from hlt)).trans_lt h.1)

/-- Units that come one at a time reach a property first with the least number that has it. -/
theorem first_count {g : ℕ → Prop} (hone : ∀ n, f n ≤ 1) (hg : ¬g 0) :
    First a (fun n => g (upTo f a (n + 1))) n ↔ ∃ m, IsLeast {m | g m} m ∧ Comes f a m n := by
  constructor
  · rintro ⟨hle, hnot, hnow⟩
    have hstep := upTo_succ (f := f) hle
    have hlast := hone n
    -- up to `n` every number is passed
    have hpass : ∀ m, m < upTo f a (n + 1) → ¬g m := by
      intro m hm
      rcases Nat.eq_zero_or_pos m with rfl | hpos
      · exact hg
      · obtain ⟨j, hj, hfirst⟩ := exists_first (P := fun n => m ≤ upTo f a (n + 1)) hle hm.le
        have hcomes := (first_upTo hpos).mp hfirst
        have hsucc := upTo_succ (f := f) hfirst.le
        have hj1 := hone j
        have heq : upTo f a (j + 1) = m := by
          have hlow := hcomes.1
          have hhigh := hcomes.2
          omega
        rcases hj.lt_or_eq with hlt | rfl
        · exact heq ▸ hnot j hfirst.le hlt
        · omega
    refine ⟨upTo f a (n + 1), ⟨hnow, fun m hm => ?_⟩, ?_, le_rfl⟩
    · by_contra hlt
      exact hpass m (by omega) hm
    · by_contra hge
      have heq : upTo f a n = upTo f a (n + 1) := by omega
      rcases hle.eq_or_lt with rfl | hlt
      · rw [upTo_self] at heq
        exact hg (heq ▸ hnow)
      · obtain ⟨j, rfl⟩ : ∃ j, n = j + 1 := ⟨n - 1, by omega⟩
        rw [← heq] at hnow
        exact hnot j (by omega) (by omega) hnow
  · rintro ⟨m, hleast, hcomes⟩
    have hsucc := upTo_succ (f := f) hcomes.le
    have hlast := hone n
    have heq : upTo f a (n + 1) = m := by
      have hlow := hcomes.1
      have hhigh := hcomes.2
      omega
    refine ⟨hcomes.le, fun j _ hlt hgj => ?_, heq ▸ hleast.1⟩
    have hle : upTo f a (j + 1) ≤ upTo f a n := upTo_mono hlt
    exact absurd (hleast.2 hgj) (not_le.mpr (hle.trans_lt hcomes.1))

end Arrival
