import Mathlib.Tactic

/-!
# Cutting a length into chunks

`n` units are cut into `count m n` chunks of `m` units, the last of which takes what is left.
-/

namespace Chunks

def count (m n : ℕ) : ℕ := (n + m - 1) / m

/-- The size of chunk `k`. -/
def size (m n k : ℕ) : ℕ := min m (n - m * k)

variable {m n k : ℕ}

lemma div_add_ragged (hm : 0 < m) : n / m + (if n % m = 0 then 0 else 1) = count m n := by
  have hd := Nat.div_add_mod n m
  have hlt := Nat.mod_lt n hm
  unfold count
  by_cases hr : n % m = 0
  · rw [if_pos hr, Nat.add_zero]
    have he : n + m - 1 = m * (n / m) + (m - 1) := by omega
    rw [he, Nat.mul_add_div hm, Nat.div_eq_of_lt (a := m - 1) (by omega), Nat.add_zero]
  · rw [if_neg hr]
    have he : n + m - 1 = m * (n / m + 1) + (n % m - 1) := by
      rw [Nat.mul_add]
      omega
    rw [he, Nat.mul_add_div hm, Nat.div_eq_of_lt (a := n % m - 1) (by omega), Nat.add_zero]

lemma count_le (hm : 0 < m) : count m n ≤ n := by
  unfold count
  rcases Nat.eq_zero_or_pos n with rfl | hn
  · simp [Nat.div_eq_of_lt (show m - 1 < m by omega)]
  · apply Nat.le_of_lt_succ
    rw [Nat.div_lt_iff_lt_mul hm, Nat.succ_mul]
    have := Nat.le_mul_of_pos_right n hm
    omega

lemma count_pos (hm : 0 < m) (hn : 0 < n) : 0 < count m n :=
  Nat.div_pos (by omega) hm

lemma lt_count_iff (hm : 0 < m) : k < count m n ↔ m * k < n := by
  unfold count
  rw [← Nat.succ_le_iff, Nat.le_div_iff_mul_le hm, Nat.succ_mul, Nat.mul_comm k]
  omega

lemma size_le (m n k : ℕ) : size m n k ≤ m := Nat.min_le_left _ _

lemma size_pos (hm : 0 < m) (hk : k < count m n) : 0 < size m n k := by
  have h := (lt_count_iff hm).mp hk
  unfold size
  omega

lemma size_full (hm : 0 < m) (hk : k + 1 < count m n) : size m n k = m := by
  have h := (lt_count_iff hm).mp hk
  rw [Nat.mul_succ] at h
  unfold size
  omega

lemma size_last (hm : 0 < m) (hk : k + 1 = count m n) :
    size m n k = if n % m = 0 then m else n % m := by
  have hlt := (lt_count_iff hm).mp (show k < count m n by omega)
  have hge : ¬m * (k + 1) < n := fun h => by
    have := (lt_count_iff hm).mpr h
    omega
  rw [Nat.mul_succ] at hge
  have hd := Nat.div_add_mod n m
  have hml := Nat.mod_lt n hm
  unfold size
  by_cases he : n = m * k + m
  · have hz : n % m = 0 := by
      rw [he, ← Nat.mul_succ, Nat.mul_mod_right]
    rw [if_pos hz]
    omega
  · have hq : n / m = k := by
      apply Nat.div_eq_of_lt_le
      · rw [Nat.mul_comm]
        omega
      · rw [Nat.succ_mul, Nat.mul_comm k]
        omega
    rw [hq] at hd
    rw [if_neg (by omega)]
    omega

/-- The first `k` chunks. -/
lemma sum_size (m n k : ℕ) : ((List.range k).map (size m n)).sum = min (m * k) n := by
  induction k with
  | zero => simp
  | succ k ih =>
    rw [List.range_succ, List.map_append, List.sum_append, ih, List.map_singleton, List.sum_singleton,
      size, Nat.mul_succ]
    omega

lemma count_succ (hm : 0 < m) (hn : m < n) : count m n = count m (n - m) + 1 := by
  unfold count
  rw [show n + m - 1 = n - m + m - 1 + m by omega, Nat.add_div_right _ hm]

lemma count_one (hn : 0 < n) (hle : n ≤ m) : count m n = 1 := by
  unfold count
  rw [show n + m - 1 = n - 1 + m by omega, Nat.add_div_right _ (hn.trans_le hle),
    Nat.div_eq_of_lt (by omega)]

lemma size_succ (m n k : ℕ) : size m n (k + 1) = size m (n - m) k := by
  rw [size, size, Nat.mul_succ]
  omega

/-- The low part of a chunk's size, for a factor `d` of the chunk size. -/
lemma size_mod {d : ℕ} (hm : 0 < m) (hd : d ∣ m) (hk : k < count m n) :
    size m n k % d = if k + 1 = count m n then n % d else 0 := by
  have hmd := Nat.mod_eq_zero_of_dvd hd
  by_cases hl : k + 1 = count m n
  · rw [if_pos hl, size_last hm hl]
    split_ifs with hz
    · rw [hmd, ← Nat.mod_mod_of_dvd n hd, hz, Nat.zero_mod]
    · rw [Nat.mod_mod_of_dvd n hd]
  · rw [if_neg hl, size_full hm (by omega), hmd]

/-- Every unit belongs to exactly one chunk. -/
theorem partition (hm : 0 < m) (offset : ℕ) : offset < n ↔
    ∃! k, k < count m n ∧ m * k ≤ offset ∧ offset < m * k + size m n k := by
  constructor
  · intro hlt
    have hd := Nat.div_add_mod offset m
    have hmod := Nat.mod_lt offset hm
    refine ⟨offset / m, ⟨(lt_count_iff hm).mpr (by omega), by omega, ?_⟩, ?_⟩
    · unfold size
      omega
    · rintro k ⟨-, hle, hlt'⟩
      have hb := size_le m n k
      symm
      apply Nat.div_eq_of_lt_le
      · rw [Nat.mul_comm]
        exact hle
      · rw [Nat.succ_mul, Nat.mul_comm k]
        omega
  · rintro ⟨k, ⟨hk, -, hlt⟩, -⟩
    have := (lt_count_iff hm).mp hk
    unfold size at hlt
    omega

/-- Cutting into chunks of `a` units and these into groups of `b` chunks. -/
lemma count_count {a b : ℕ} (ha : 0 < a) (hb : 0 < b) : count b (count a n) = count (a * b) n := by
  have h : ∀ k, k < count b (count a n) ↔ k < count (a * b) n := by
    intro k
    rw [lt_count_iff hb, lt_count_iff ha, lt_count_iff (Nat.mul_pos ha hb), Nat.mul_assoc]
  apply le_antisymm
  · exact Nat.le_of_not_lt fun hlt => lt_irrefl _ ((h _).mp hlt)
  · exact Nat.le_of_not_lt fun hlt => lt_irrefl _ ((h _).mpr hlt)

/-- The slices of a list, `m` elements each, one after the other. -/
lemma flatten_slices {α : Type*} (hm : 0 < m) (l : List α) :
    ((List.range (count m l.length)).map fun k => (l.drop (m * k)).take m).flatten = l := by
  have hfirst : ∀ j, ((List.range j).map fun k => (l.drop (m * k)).take m).flatten =
      l.take (m * j) := by
    intro j
    induction j with
    | zero => simp
    | succ j ih =>
      rw [List.range_succ, List.map_append, List.flatten_append, ih, Nat.mul_succ, List.take_add]
      simp
  rw [hfirst, List.take_of_length_le]
  by_contra hlt
  exact lt_irrefl _ ((lt_count_iff hm).mpr (Nat.not_le.mp hlt))

end Chunks
