import Mathlib.Tactic

/-!
# Requests on the RQ interface

A straddled 512-bit beat of sixteen DWs. A TLP starts at byte 0 or at byte 32 with a descriptor of
four DWs, and its payload follows: a memory write has some, a memory read has none.
-/

namespace FpgaPcie

/-- A beat with the payload DWs of the TLP that starts at byte 0 and of the one that starts at byte
32. `otherSop` and the `otherEop` are what the pointers show that point to nothing. -/
structure RqBeat where
  lower : Option ℕ
  upper : Option ℕ
  otherSop : BitVec 2
  otherEop0 : BitVec 4
  otherEop1 : BitVec 4

/-- The fields of `m_axis_rq_tuser` that frame the TLPs. -/
structure RqPins where
  isRqSop : BitVec 2
  isRqSop0Ptr : BitVec 2
  isRqEop : BitVec 2
  isRqEop0Ptr : BitVec 4
  isRqEop1Ptr : BitVec 4

namespace RqBeat

/-! `carry` is the number of DWs of the open TLP that are still to come. -/

variable (b : RqBeat) (carry : ℕ)

/-- The lanes in which TLPs end. -/
def ends : List ℕ :=
  (if 0 < carry ∧ carry ≤ 16 then [carry - 1] else []) ++
    (b.lower.elim [] fun p => if p ≤ 12 then [p + 3] else []) ++
      (b.upper.elim [] fun p => if p ≤ 4 then [p + 11] else [])

def pins : RqPins where
  isRqSop := if b.lower.isSome && b.upper.isSome then 0b11
    else if b.lower.isSome || b.upper.isSome then 0b01 else 0b00
  isRqSop0Ptr := if b.lower.isSome then 0b00 else if b.upper.isSome then 0b10 else b.otherSop
  isRqEop := match (b.ends carry).length with
    | 0 => 0b00
    | 1 => 0b01
    | _ => 0b11
  isRqEop0Ptr := ((b.ends carry)[0]?.map (BitVec.ofNat 4)).getD b.otherEop0
  isRqEop1Ptr := ((b.ends carry)[1]?.map (BitVec.ofNat 4)).getD b.otherEop1

/-- The payload DWs in the beat. -/
def payload : ℕ :=
  min carry 16 + (b.lower.elim 0 fun p => min p 12) + b.upper.elim 0 fun p => min p 4

/-- What is still to come behind the beat. -/
def next : ℕ :=
  match b.upper, b.lower with
  | some p, _ => p - 4
  | none, some p => p - 12
  | none, none => carry - 16

/-- The beat continues the stream: it holds something, and no two TLPs share a lane. -/
structure Fits : Prop where
  busy : carry ≠ 0 ∨ b.lower.isSome = true ∨ b.upper.isSome = true
  lower_free : b.lower.isSome = true → carry = 0
  upper_free : b.upper.isSome = true → carry ≤ 8
  lower_ends : b.upper.isSome = true → ∀ p ∈ b.lower, p ≤ 4

/-- A TLP starts at byte 32, and nothing is in front of it. -/
def Alone : Prop := carry = 0 ∧ b.lower = none ∧ b.upper.isSome = true

instance : Decidable (b.Alone carry) := inferInstanceAs (Decidable (_ ∧ _))

variable {b : RqBeat} {carry : ℕ}

/-- The payload in a beat and what is to come behind it is what was to come and what its new TLPs
bring. -/
theorem payload_add_next (h : b.Fits carry) :
    b.payload carry + b.next carry = carry + b.lower.getD 0 + b.upper.getD 0 := by
  obtain ⟨lower, upper, _, _, _⟩ := b
  have hlower := h.lower_free
  have hupper := h.upper_free
  have hends := h.lower_ends
  unfold payload next
  cases lower <;> cases upper <;> simp_all <;> omega

end RqBeat

end FpgaPcie
