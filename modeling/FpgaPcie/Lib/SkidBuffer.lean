import Mathlib.Tactic

/-!
# Skid buffers

An output register with a second register behind it, so that the ready signal to the producer
can be registered. Words leave in the order in which they came, and none is lost, as long as the
producer presents a word only while it sees ready.
-/

structure SkidBuffer (α : Type) where
  outReg : α
  outValidReg : Bool
  tempReg : α
  tempValidReg : Bool
  readyIntReg : Bool

namespace SkidBuffer

variable {α : Type}

def reset (x : α) : SkidBuffer α := ⟨x, false, x, false, false⟩

/-- The word of the producer goes to the output register, when the producer sees ready. -/
def direct (s : SkidBuffer α) (ready : Bool) : Bool := ready || !s.outValidReg

/-- One clock edge: `intValid` and `int` come from the producer, `ready` from downstream. -/
def step (s : SkidBuffer α) (intValid : Bool) (int : α) (ready : Bool) : SkidBuffer α :=
  let s' := { s with readyIntReg := ready || (!s.tempValidReg && !s.outValidReg) }
  if s.readyIntReg then
    if s.direct ready then
      { s' with
        outReg := int
        outValidReg := intValid }
    else
      { s' with
        tempReg := int
        tempValidReg := intValid }
  else if ready then
    { s' with
      outReg := s.tempReg
      outValidReg := s.tempValidReg
      tempValidReg := false }
  else s'

/-- The second register is in use only behind a stalled output register, and then the producer does
not see ready. -/
structure WellFormed (s : SkidBuffer α) : Prop where
  ready : s.readyIntReg = true → s.tempValidReg = false
  behind : s.tempValidReg = true → s.outValidReg = true

/-- The words in the buffer, oldest first. -/
def pending (s : SkidBuffer α) : List α :=
  (if s.outValidReg then [s.outReg] else []) ++ if s.tempValidReg then [s.tempReg] else []

lemma reset_wellFormed (x : α) : (reset x).WellFormed := ⟨nofun, nofun⟩

@[simp] lemma reset_pending (x : α) : (reset x).pending = [] := rfl

variable {s : SkidBuffer α} {v ready : Bool} {x : α}

lemma WellFormed.step (h : s.WellFormed) : (s.step v x ready).WellFormed := by
  obtain ⟨hready, hbehind⟩ := h
  unfold SkidBuffer.step direct
  dsimp only
  cases hi : s.readyIntReg with
  | false =>
    cases hr : ready with
    | false => constructor <;> simp <;> tauto
    | true => constructor <;> simp
  | true =>
    have htemp := hready hi
    cases hr : ready with
    | false =>
      cases ho : s.outValidReg with
      | false => constructor <;> simp [htemp]
      | true => constructor <;> simp
    | true => constructor <;> simp [htemp]

/-- What is accepted downstream in a cycle, followed by what is in the buffer after it, is what was
in the buffer before and the producer's word. -/
theorem step_pending (h : s.WellFormed) (hv : v = true → s.readyIntReg = true) :
    (if s.outValidReg && ready then [s.outReg] else []) ++ (s.step v x ready).pending =
      s.pending ++ if v then [x] else [] := by
  obtain ⟨hready, hbehind⟩ := h
  unfold SkidBuffer.step direct pending
  cases hi : s.readyIntReg with
  | false =>
    have hnot : v = false := by
      cases v with
      | false => rfl
      | true => rw [hi] at hv; cases hv rfl
    subst hnot
    cases hr : ready with
    | false => simp
    | true =>
      cases ht : s.tempValidReg with
      | false => simp
      | true => simp [hbehind ht]
  | true =>
    have htemp := hready hi
    cases hr : ready with
    | false => cases ho : s.outValidReg <;> simp [htemp]
    | true => cases ho : s.outValidReg <;> simp [htemp]

end SkidBuffer
