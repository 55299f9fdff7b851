import Mathlib.Data.List.Basic
import Mathlib.Logic.Function.Basic
import Mathlib.Data.Nat.ModEq
import Mathlib.Data.Nat.Bitwise
import Mathlib.Tactic

/-!
# Ring buffers with one extra pointer bit

A memory of `M` cells addressed by a write and a read pointer that count modulo
`2 * M`. The extra bit tells a full buffer from an empty one. The buffer holds a
queue, oldest word first; this file relates the pointer tests and the two pointer
moves to the queue operations.
-/

namespace RingBuffer

/-- The cells of `mem` from `rd` up to `wr` hold the queue `q`. -/
structure Holds {α : Type} (M : ℕ) (mem : ℕ → α) (wr rd : ℕ) (q : List α) : Prop where
  length_le : q.length ≤ M
  rd_lt : rd < 2 * M
  wr_eq : wr = (rd + q.length) % (2 * M)
  cell : ∀ i (h : i < q.length), mem ((rd + i) % M) = q[i]

variable {α : Type} {M : ℕ} {mem : ℕ → α} {wr rd : ℕ} {q : List α}

lemma cell_injective {a i j : ℕ} (hi : i < M) (hj : j < M) (h : (a + i) % M = (a + j) % M) :
    i = j := by
  have hmod : i ≡ j [MOD M] := Nat.ModEq.add_left_cancel' a h
  rwa [Nat.ModEq, Nat.mod_eq_of_lt hi, Nat.mod_eq_of_lt hj] at hmod

/-- The `n` cells from `start` on. -/
def InWindow (M start n cell : ℕ) : Prop := ∃ j, j < n ∧ cell = (start + j) % M

lemma inWindow_iff {p n cell : ℕ} :
    InWindow M (p % M) n cell ↔ ∃ k, p ≤ k ∧ k < p + n ∧ cell = k % M := by
  constructor
  · intro ⟨j, hj, hcell⟩
    exact ⟨p + j, Nat.le_add_right p j, by omega, by rw [hcell, Nat.mod_add_mod]⟩
  · intro ⟨k, hle, hlt, hcell⟩
    obtain ⟨j, rfl⟩ := Nat.exists_eq_add_of_le hle
    exact ⟨j, by omega, by rw [hcell, Nat.mod_add_mod]⟩

lemma inWindow_push {start n cell : ℕ} :
    InWindow M start (n + 1) cell ↔ InWindow M start n cell ∨ cell = (start + n) % M := by
  constructor
  · rintro ⟨j, hj, rfl⟩
    rcases Nat.lt_succ_iff_lt_or_eq.mp hj with hlt | rfl
    · exact .inl ⟨j, hlt, rfl⟩
    · exact .inr rfl
  · rintro (⟨j, hj, hcell⟩ | hcell)
    · exact ⟨j, by omega, hcell⟩
    · exact ⟨n, by omega, hcell⟩

/-- The cell behind a window that is not full is not in it. -/
lemma not_inWindow_end {start n : ℕ} (hn : n < M) : ¬InWindow M start n ((start + n) % M) := by
  rintro ⟨j, hj, heq⟩
  have hsame := cell_injective hn (hj.trans hn) heq
  omega

lemma inWindow_pop {start n cell : ℕ} (hstart : start < M) (hn : n < M) :
    InWindow M ((start + 1) % M) n cell ↔ InWindow M start (n + 1) cell ∧ cell ≠ start := by
  have hnext : ∀ j, ((start + 1) % M + j) % M = (start + (j + 1)) % M := by
    intro j
    rw [Nat.mod_add_mod, Nat.add_assoc, Nat.add_comm 1]
  constructor
  · rintro ⟨j, hj, rfl⟩
    refine ⟨⟨j + 1, by omega, hnext j⟩, fun heq => ?_⟩
    have hsame : (start + (j + 1)) % M = (start + 0) % M := by
      rw [← hnext, heq, Nat.add_zero, Nat.mod_eq_of_lt hstart]
    have hzero := cell_injective (by omega) (by omega) hsame
    omega
  · rintro ⟨⟨j, hj, rfl⟩, hne⟩
    cases j with
    | zero => exact absurd (by rw [Nat.add_zero, Nat.mod_eq_of_lt hstart]) hne
    | succ j => exact ⟨j, by omega, (hnext j).symm⟩

lemma mod_two_mul_mod (x : ℕ) : x % (2 * M) % M = x % M :=
  Nat.mod_mod_of_dvd x (Dvd.intro_left 2 rfl)

namespace Holds

lemma pos (h : Holds M mem wr rd q) : 0 < M := by
  have := h.rd_lt
  omega

lemma count (h : Holds M mem wr rd q) : (wr + 2 * M - rd) % (2 * M) = q.length := by
  have hl := h.length_le
  have hr := h.rd_lt
  rw [h.wr_eq]
  by_cases hc : rd + q.length < 2 * M
  · rw [Nat.mod_eq_of_lt hc]
    have he : rd + q.length + 2 * M - rd = q.length + 2 * M := by omega
    rw [he, Nat.add_mod_right, Nat.mod_eq_of_lt (by omega)]
  · have hs : (rd + q.length) % (2 * M) = rd + q.length - 2 * M := by
      rw [Nat.mod_eq_sub_mod (by omega), Nat.mod_eq_of_lt (by omega)]
    rw [hs]
    have he : rd + q.length - 2 * M + 2 * M - rd = q.length := by omega
    rw [he, Nat.mod_eq_of_lt (by omega)]

lemma empty_iff (h : Holds M mem wr rd q) : wr = rd ↔ q = [] := by
  have hp := h.pos
  have hr := h.rd_lt
  constructor
  · intro he
    have hc := h.count
    rw [he, Nat.add_sub_cancel_left, Nat.mod_self] at hc
    exact List.length_eq_zero_iff.mp hc.symm
  · rintro rfl
    have hw := h.wr_eq
    rwa [List.length_nil, Nat.add_zero, Nat.mod_eq_of_lt hr] at hw

lemma full_iff (h : Holds M mem wr rd q) : wr = (rd + M) % (2 * M) ↔ q.length = M := by
  have hl := h.length_le
  have hr := h.rd_lt
  constructor
  · intro he
    rw [h.wr_eq] at he
    have hmod : q.length ≡ M [MOD 2 * M] := Nat.ModEq.add_left_cancel' rd he
    rwa [Nat.ModEq, Nat.mod_eq_of_lt (by have := h.pos; omega),
      Nat.mod_eq_of_lt (by have := h.pos; omega)] at hmod
  · intro he
    rw [h.wr_eq, he]

lemma head (h : Holds M mem wr rd q) (hq : q ≠ []) : mem (rd % M) = q.head hq := by
  have hpos : 0 < q.length := List.length_pos_iff.mpr hq
  have hc := h.cell 0 hpos
  rw [Nat.add_zero] at hc
  rw [hc, List.head_eq_getElem]

lemma push (h : Holds M mem wr rd q) (hq : q.length < M) (x : α) :
    Holds M (Function.update mem (wr % M) x) ((wr + 1) % (2 * M)) rd (q ++ [x]) where
  length_le := by rw [List.length_append, List.length_singleton]; omega
  rd_lt := h.rd_lt
  wr_eq := by
    rw [h.wr_eq, Nat.mod_add_mod, List.length_append, List.length_singleton, Nat.add_assoc]
  cell i hi := by
    rw [List.length_append, List.length_singleton] at hi
    have hw : wr % M = (rd + q.length) % M := by rw [h.wr_eq, mod_two_mul_mod]
    by_cases hlt : i < q.length
    · have hne : (rd + i) % M ≠ wr % M := by
        rw [hw]
        intro he
        have := cell_injective (by omega) hq he
        omega
      rw [Function.update_of_ne hne, h.cell i hlt, List.getElem_append_left hlt]
    · have hi' : i = q.length := by omega
      subst hi'
      rw [hw, Function.update_self]
      simp

lemma pop (h : Holds M mem wr rd q) (hq : q ≠ []) :
    Holds M mem wr ((rd + 1) % (2 * M)) q.tail where
  length_le := by rw [List.length_tail]; have := h.length_le; omega
  rd_lt := Nat.mod_lt _ (by have := h.pos; omega)
  wr_eq := by
    have hpos : 0 < q.length := List.length_pos_iff.mpr hq
    have he : rd + 1 + (q.length - 1) = rd + q.length := by omega
    rw [Nat.mod_add_mod, List.length_tail, he, h.wr_eq]
  cell i hi := by
    rw [List.length_tail] at hi
    have hc := h.cell (i + 1) (by omega)
    rw [List.getElem_tail, ← hc]
    congr 1
    rw [← mod_two_mul_mod (M := M) ((rd + 1) % (2 * M) + i), Nat.mod_add_mod, mod_two_mul_mod,
      Nat.add_right_comm, Nat.add_assoc]

end Holds

lemma xor_top_bit {w x : ℕ} (hx : x < 2 ^ (w + 1)) : x ^^^ 2 ^ w = (x + 2 ^ w) % 2 ^ (w + 1) := by
  have h2 : 2 ^ (w + 1) = 2 ^ w + 2 ^ w := by rw [pow_succ]; ring
  by_cases hlt : x < 2 ^ w
  · have hor : x ^^^ 2 ^ w = x + 2 ^ w := by
      have hd : 2 ^ w * 1 + x = 2 ^ w * 1 ||| x := Nat.two_pow_add_eq_or_of_lt hlt 1
      rw [Nat.mul_one] at hd
      rw [Nat.add_comm, hd]
      apply Nat.eq_of_testBit_eq
      intro i
      rw [Nat.testBit_xor, Nat.testBit_or, Nat.testBit_two_pow]
      by_cases hi : w = i
      · subst hi
        simp [Nat.testBit_lt_two_pow hlt]
      · simp [hi]
    rw [hor, Nat.mod_eq_of_lt (by omega)]
  · obtain ⟨y, rfl⟩ := Nat.exists_eq_add_of_le (Nat.not_lt.mp hlt)
    have hy : y < 2 ^ w := by omega
    have hd : 2 ^ w * 1 + y = 2 ^ w * 1 ||| y := Nat.two_pow_add_eq_or_of_lt hy 1
    rw [Nat.mul_one] at hd
    have hxor : (2 ^ w + y) ^^^ 2 ^ w = y := by
      rw [hd]
      apply Nat.eq_of_testBit_eq
      intro i
      rw [Nat.testBit_xor, Nat.testBit_or, Nat.testBit_two_pow]
      by_cases hi : w = i
      · subst hi
        simp [Nat.testBit_lt_two_pow hy]
      · simp [hi]
    have he : 2 ^ w + y + 2 ^ w = y + 2 ^ (w + 1) := by omega
    rw [hxor, he, Nat.add_mod_right, Nat.mod_eq_of_lt (by omega)]

end RingBuffer
