import Mathlib.Data.Nat.Bitwise
import Mathlib.Tactic

/-!
# Gray codes of counters

The reflected Gray code is injective, and two counters that are half a turn apart have codes that
differ in the two top bits. Both facts make pointer comparisons possible on the codes.
-/

namespace GrayCode

variable {w : ℕ}

def gray (x : BitVec w) : BitVec w := (x >>> 1) ^^^ x

/-- The code with its two top bits inverted. -/
def invertTop (g : BitVec w) : BitVec w :=
  (~~~g.extractLsb' (w - 2) 2 ++ g.extractLsb' 0 (w - 2)).setWidth w

lemma getLsbD_gray (x : BitVec w) (i : ℕ) :
    (gray x).getLsbD i = (x.getLsbD (i + 1) ^^ x.getLsbD i) := by
  simp only [gray, BitVec.getLsbD_xor, BitVec.getLsbD_ushiftRight, Nat.add_comm 1 i]

theorem gray_injective : Function.Injective (gray : BitVec w → BitVec w) := by
  intro x y h
  -- from the top bit down
  have hbits : ∀ k, x.getLsbD (w - k) = y.getLsbD (w - k) := by
    intro k
    induction k with
    | zero => simp
    | succ k ih =>
      by_cases hk : k < w
      · have hi : w - (k + 1) + 1 = w - k := by omega
        have hg := congrArg (fun g => g.getLsbD (w - (k + 1))) h
        simp only [getLsbD_gray, hi, ih] at hg
        exact Bool.xor_right_inj.mp hg
      · rwa [show w - (k + 1) = w - k by omega]
  apply BitVec.eq_of_getLsbD_eq
  intro i hi
  have hb := hbits (w - i)
  rwa [show w - (w - i) = i by omega] at hb

lemma getLsbD_invertTop (g : BitVec w) (hw : 2 ≤ w) {i : ℕ} (hi : i < w) :
    (invertTop g).getLsbD i = (g.getLsbD i ^^ decide (w - 2 ≤ i)) := by
  simp only [invertTop, BitVec.getLsbD_setWidth, BitVec.getLsbD_append, hi, decide_true,
    Bool.true_and]
  by_cases hlow : i < w - 2
  · simp [hlow, show ¬w - 2 ≤ i by omega]
  · have hle : w - 2 ≤ i := by omega
    have hbit : w - 2 + (i - (w - 2)) = i := by omega
    simp [hlow, hle, hbit, show i - (w - 2) < 2 by omega]

/-- Half a turn inverts the two top bits. -/
theorem gray_half_turn (n : ℕ) (hw : 2 ≤ w) :
    gray (BitVec.ofNat w (n + 2 ^ (w - 1))) = invertTop (gray (BitVec.ofNat w n)) := by
  have hlow : ∀ i, i < w - 1 → (n + 2 ^ (w - 1)).testBit i = n.testBit i := by
    intro i hi
    rw [Nat.add_comm]
    exact Nat.testBit_two_pow_add_gt hi n
  have htop : (n + 2 ^ (w - 1)).testBit (w - 1) = !n.testBit (w - 1) := by
    rw [Nat.add_comm]
    exact Nat.testBit_two_pow_add_eq n (w - 1)
  apply BitVec.eq_of_getLsbD_eq
  intro i hi
  rw [getLsbD_invertTop _ hw hi, getLsbD_gray, getLsbD_gray]
  simp only [BitVec.getLsbD_ofNat, hi, decide_true, Bool.true_and]
  rcases Nat.lt_trichotomy i (w - 2) with h | rfl | h
  · simp [hlow i (by omega), hlow (i + 1) (by omega), show ¬w - 2 ≤ i by omega]
  · rw [hlow (w - 2) (by omega), show w - 2 + 1 = w - 1 by omega, htop]
    simp [show w - 1 < w by omega]
  · obtain rfl : i = w - 1 := by omega
    simp [htop, show ¬w - 1 + 1 < w by omega, show w - 2 ≤ w - 1 by omega]

/-- Counters less than a turn apart are equal when their codes are. -/
theorem gray_eq_iff {m n : ℕ} (hmn : m ≤ n) (hlt : n < m + 2 ^ w) :
    gray (BitVec.ofNat w m) = gray (BitVec.ofNat w n) ↔ m = n := by
  constructor
  · intro h
    have hmod := congrArg BitVec.toNat (gray_injective h)
    simp only [BitVec.toNat_ofNat] at hmod
    have hsub : (n - m) % 2 ^ w = 0 := Nat.sub_mod_eq_zero_of_mod_eq hmod.symm
    have hz := Nat.eq_zero_of_dvd_of_lt (Nat.dvd_of_mod_eq_zero hsub) (by omega)
    omega
  · rintro rfl
    rfl

end GrayCode
