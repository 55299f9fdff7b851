import Mathlib.Data.Fintype.Basic
import Mathlib.Tactic

/-!
# Completions on the RC interface

A 512-bit beat has four slots of four DWs. A completion starts in a slot with three DWs of header,
its payload follows without a gap, and the next completion may start in the same beat. The
completions of both engines share the interface, one after the other.
-/

namespace FpgaPcie

/-- What a completion answers: a data request of the H2C engine or a list request of the C2H
engine. -/
inductive RcOwner
  | h2cData | c2hList
  deriving DecidableEq

/-- A completion with `dwordCount` DWs that carry `bytes` bytes of payload. -/
structure RcCpl where
  owner : RcOwner
  dwordCount : ℕ
  bytes : ℕ
  deriving DecidableEq

-- the slots are numerals of `Fin 4`, all by this one instance
instance slot_neZero : NeZero 4 := ⟨by decide⟩

/-- A beat with the completions that start in it, each with its slot. `other` is what the slots
without a header show in the place of a DW count. -/
structure RcBeat where
  starts : List (Fin 4 × RcCpl)
  other : Fin 4 → ℕ
  ordered : starts.Pairwise fun a b => a.1 < b.1

/-- The wires of a beat that show where completions start and how long they are. -/
structure RcPins where
  isRcSop : BitVec 4
  isSopPtr : Fin 4 → Fin 4
  dwordCount : Fin 4 → ℕ

/-- A completion and the number of its DWs that are still to come. -/
abbrev RcOpen := RcCpl × ℕ

namespace RcCpl

variable (c : RcCpl)

/-- The payload bytes in the first `n` DWs. -/
def bytesIn (n : ℕ) : ℕ := min c.bytes (4 * n)

/-- The H2C payload in the next `lanes` DWs, when `n` are still to come. -/
def moved (n lanes : ℕ) : ℕ :=
  if c.owner = .h2cData then
    c.bytesIn (c.dwordCount - n + min n lanes) - c.bytesIn (c.dwordCount - n)
  else 0

/-- The H2C payload in the last `n` DWs. -/
def owed (n : ℕ) : ℕ :=
  if c.owner = .h2cData then c.bytesIn c.dwordCount - c.bytesIn (c.dwordCount - n) else 0

end RcCpl

namespace RcBeat

variable (b : RcBeat)

def pins : RcPins where
  isRcSop := BitVec.ofNat 4 (2 ^ b.starts.length - 1)
  isSopPtr k := (b.starts[k.val]?.map Prod.fst).getD 0
  dwordCount slot := ((b.starts.find? fun s => s.1 == slot).map fun s => s.2.dwordCount).getD
    (b.other slot)

/-- The DWs of payload in the beat of a completion that starts in it. -/
def lanes (slot : Fin 4) : ℕ := 13 - 4 * slot.val

def remaining (lanes : ℕ) (o : RcOpen) : Option RcOpen :=
  if lanes < o.2 then some (o.1, o.2 - lanes) else none

/-- What is still to come behind the beat. -/
def next (carry : Option RcOpen) : Option RcOpen :=
  match b.starts.getLast? with
  | some s => remaining (lanes s.1) (s.2, s.2.dwordCount)
  | none => carry.bind (remaining 16)

/-- Completions from the lane on do not overlap, and none but the last goes beyond the beat. -/
def FitsFrom : ℕ → List (Fin 4 × RcCpl) → Prop
  | _, [] => True
  | lane, s :: rest => lane ≤ 4 * s.1.val ∧
      (rest ≠ [] → s.2.dwordCount ≤ lanes s.1) ∧ FitsFrom (4 * s.1.val + 3 + s.2.dwordCount) rest

/-- The beat continues the stream. -/
def Fits (carry : Option RcOpen) : Prop := FitsFrom (carry.elim 0 fun o => min o.2 16) b.starts

/-- The H2C payload in the beat. -/
def moved (carry : Option RcOpen) : ℕ :=
  (carry.elim 0 fun o => o.1.moved o.2 16) +
    (b.starts.map fun s => s.2.moved s.2.dwordCount (lanes s.1)).sum

/-- The H2C payload of the completions that start in the beat. -/
def h2cBytes : ℕ := (b.starts.map fun s => s.2.owed s.2.dwordCount).sum

end RcBeat

/-- The H2C payload that is still to come. -/
def rcOwed (carry : Option RcOpen) : ℕ := carry.elim 0 fun o => o.1.owed o.2

/-! ### Conservation -/

/-- What the next lanes bring and what comes behind them is what was to come. -/
lemma RcCpl.moved_add_owed (c : RcCpl) (n lanes : ℕ) (hn : n ≤ c.dwordCount) :
    c.moved n lanes + rcOwed (RcBeat.remaining lanes (c, n)) = c.owed n := by
  unfold RcCpl.moved RcBeat.remaining rcOwed RcCpl.owed RcCpl.bytesIn
  dsimp only
  by_cases ho : c.owner = .h2cData
  · simp only [ho, if_true]
    by_cases hl : lanes < n
    · rw [if_pos hl]
      simp only [Option.elim_some, ho, if_true]
      omega
    · rw [if_neg hl]
      simp only [Option.elim_none]
      omega
  · by_cases hl : lanes < n <;> simp [ho, hl]

lemma RcCpl.moved_eq_owed (c : RcCpl) {n lanes : ℕ} (hn : n ≤ c.dwordCount) (hl : n ≤ lanes) :
    c.moved n lanes = c.owed n := by
  have h := c.moved_add_owed n lanes hn
  rw [RcBeat.remaining, if_neg (by omega)] at h
  exact h

/-- The completions that start in a beat, all but the last of which end in it. -/
lemma RcBeat.starts_moved {starts : List (Fin 4 × RcCpl)} {lane : ℕ} (h : FitsFrom lane starts) :
    (starts.map fun s => s.2.moved s.2.dwordCount (lanes s.1)).sum +
        rcOwed (starts.getLast?.bind fun s => remaining (lanes s.1) (s.2, s.2.dwordCount)) =
      (starts.map fun s => s.2.owed s.2.dwordCount).sum := by
  induction starts generalizing lane with
  | nil => rfl
  | cons s rest ih =>
    obtain ⟨-, hend, hrest⟩ := h
    rw [List.map_cons, List.map_cons, List.sum_cons, List.sum_cons]
    cases rest with
    | nil =>
      have hs := s.2.moved_add_owed s.2.dwordCount (lanes s.1) le_rfl
      simpa using hs
    | cons s' rest =>
      have hs := s.2.moved_eq_owed le_rfl (hend (by simp))
      have hr := ih hrest
      rw [List.getLast?_cons_cons, hs, Nat.add_assoc, hr]

/-- The payload of a beat and what is to come behind it is what was to come and what its new
completions bring. -/
theorem RcBeat.moved_add_owed {b : RcBeat} {carry : Option RcOpen} (h : b.Fits carry)
    (hc : ∀ o ∈ carry, o.2 ≤ o.1.dwordCount) :
    b.moved carry + rcOwed (b.next carry) = rcOwed carry + b.h2cBytes := by
  cases hs : b.starts with
  | nil =>
    cases carry with
    | none => simp [moved, next, hs, rcOwed, h2cBytes]
    | some o =>
      have ho := o.1.moved_add_owed o.2 16 (hc o rfl)
      simpa [moved, next, hs, rcOwed, h2cBytes] using ho
  | cons s rest =>
    have hfit : FitsFrom (carry.elim 0 fun o => min o.2 16) (s :: rest) := by
      rw [← hs]
      exact h
    have hstarts := starts_moved hfit
    have hcarry : (carry.elim 0 fun o => o.1.moved o.2 16) = rcOwed carry := by
      cases carry with
      | none => rfl
      | some o =>
        have hle : min o.2 16 ≤ 4 * s.1.val := hfit.1
        exact o.1.moved_eq_owed (hc o rfl) (by omega)
    have hnext : b.next carry = (s :: rest).getLast?.bind fun s =>
        remaining (lanes s.1) (s.2, s.2.dwordCount) := by
      rw [next, hs]
      cases hl : (s :: rest).getLast? with
      | none => simp at hl
      | some l => rfl
    rw [moved, h2cBytes, hnext, hs, hcarry, Nat.add_assoc, hstarts]

lemma RcBeat.next_le {b : RcBeat} {carry : Option RcOpen}
    (hc : ∀ o ∈ carry, o.2 ≤ o.1.dwordCount) : ∀ o ∈ b.next carry, o.2 ≤ o.1.dwordCount := by
  have hrem : ∀ lanes o, ∀ o' ∈ remaining lanes o, o.2 ≤ o.1.dwordCount →
      o'.2 ≤ o'.1.dwordCount := by
    intro lanes o o' ho' hle
    simp only [remaining] at ho'
    split_ifs at ho'
    · obtain rfl := Option.some.inj ho'
      dsimp only
      omega
    · cases ho'
  intro o ho
  cases hs : b.starts.getLast? with
  | none =>
    rw [next, hs] at ho
    cases carry with
    | none => cases ho
    | some o₀ => exact hrem 16 o₀ o ho (hc o₀ rfl)
  | some s =>
    rw [next, hs] at ho
    exact hrem _ _ o ho le_rfl

end FpgaPcie
