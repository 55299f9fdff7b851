import Mathlib.Algebra.Order.Group.Nat
import Mathlib.Data.Nat.Bitwise
import Mathlib.Tactic.Ring

/-!
# Fields of a word

A word is packed from fields of given widths, the most significant first, and each field is cut to its width. A slice
of the word at the place of a field is the field.
-/

namespace BitField

/-- The widths together. -/
def width : List (ℕ × ℕ) → ℕ
  | [] => 0
  | f :: fs => f.1 + width fs

/-- The word of fields that are given by width and value. -/
def pack : List (ℕ × ℕ) → ℕ
  | [] => 0
  | f :: fs => f.2 % 2 ^ f.1 * 2 ^ width fs + pack fs

/-- The `n` bits from bit `low` on. -/
def slice (x low n : ℕ) : ℕ := x / 2 ^ low % 2 ^ n

@[simp] lemma width_nil : width [] = 0 := rfl

@[simp] lemma width_cons (f : ℕ × ℕ) (fs : List (ℕ × ℕ)) : width (f :: fs) = f.1 + width fs := rfl

lemma pack_lt (fs : List (ℕ × ℕ)) : pack fs < 2 ^ width fs := by
  induction fs with
  | nil => exact Nat.one_pos
  | cons f fs ih =>
    have hf : f.2 % 2 ^ f.1 + 1 ≤ 2 ^ f.1 := Nat.mod_lt _ (Nat.two_pow_pos f.1)
    calc f.2 % 2 ^ f.1 * 2 ^ width fs + pack fs
        < f.2 % 2 ^ f.1 * 2 ^ width fs + 2 ^ width fs := Nat.add_lt_add_left ih _
      _ = (f.2 % 2 ^ f.1 + 1) * 2 ^ width fs := by ring
      _ ≤ 2 ^ f.1 * 2 ^ width fs := Nat.mul_le_mul_right _ hf
      _ = 2 ^ width (f :: fs) := (Nat.pow_add 2 _ _).symm

/-- The fields above a field are whole multiples of its place. -/
lemma pack_append (fs gs : List (ℕ × ℕ)) : pack (fs ++ gs) = pack fs * 2 ^ width gs + pack gs := by
  induction fs with
  | nil => simp [pack]
  | cons f fs ih =>
    have hwidth : width (fs ++ gs) = width fs + width gs := by
      clear ih
      induction fs with
      | nil => simp
      | cons f fs ih => simp [ih, Nat.add_assoc]
    rw [List.cons_append, pack, pack, ih, hwidth, Nat.pow_add]
    ring

/-- The slice at the place of a field. -/
theorem slice_pack (fs gs : List (ℕ × ℕ)) (w v : ℕ) :
    slice (pack (fs ++ (w, v) :: gs)) (width gs) w = v % 2 ^ w := by
  have hgs := pack_lt gs
  have hsplit : pack (fs ++ (w, v) :: gs) = pack gs + 2 ^ width gs * (v % 2 ^ w + 2 ^ w * pack fs) := by
    rw [pack_append, pack, width_cons, Nat.pow_add]
    ring
  rw [slice, hsplit, Nat.add_mul_div_left _ _ (Nat.two_pow_pos _), Nat.div_eq_of_lt hgs, Nat.zero_add,
    Nat.add_mul_mod_self_left, Nat.mod_mod]

/-- A slice of a slice. -/
lemma slice_slice {x low n low' n' : ℕ} (h : low' + n' ≤ n) :
    slice (slice x low n) low' n' = slice x (low + low') n' := by
  apply Nat.eq_of_testBit_eq
  intro i
  simp only [slice, Nat.testBit_mod_two_pow, Nat.testBit_div_two_pow]
  by_cases hi : i < n'
  · have hin : i + low' < n := by omega
    have hplace : i + low' + low = i + (low + low') := by omega
    rw [hplace]
    simp [hi, hin]
  · simp [hi]

/-- Two slices side by side. -/
lemma slice_add (x low n m : ℕ) : slice x low (n + m) = slice x low n + 2 ^ n * slice x (low + n) m := by
  rw [slice, slice, slice, Nat.pow_add 2 n m, Nat.mod_mul, Nat.div_div_eq_div_mul, ← Nat.pow_add]

end BitField
