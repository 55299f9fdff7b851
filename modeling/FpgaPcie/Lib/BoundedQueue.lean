import Mathlib.Data.List.Basic
import Mathlib.Tactic

/-!
# Bounded queues

A clocked queue that holds at most `cap` words. In one clock edge a read enable drops
the oldest word (nothing when the queue is empty) and a group of words is appended (nothing
when the group does not fit). The length bound is part of the type.
-/

/-- A queue of at most `cap` words, oldest first. -/
structure BoundedQueue (α : Type) (cap : ℕ) where
  words : List α
  length_le : words.length ≤ cap

namespace BoundedQueue

variable {α : Type} {cap : ℕ}

def empty (α : Type) (cap : ℕ) : BoundedQueue α cap := ⟨[], Nat.zero_le cap⟩

/-- One clock edge with read enable `rd` and the words `wr` on the write port. -/
def clock (q : BoundedQueue α cap) (wr : List α) (rd : Bool) : BoundedQueue α cap where
  words := (if rd then q.words.tail else q.words) ++
    if q.words.length + wr.length ≤ cap then wr else []
  length_le := by
    have h := q.length_le
    have ht : (if rd then q.words.tail else q.words).length ≤ q.words.length := by
      split <;> simp
    have hw : (if q.words.length + wr.length ≤ cap then wr else []).length ≤
        cap - q.words.length := by
      split
      · omega
      · exact Nat.zero_le _
    rw [List.length_append]
    omega

@[simp] lemma empty_words : (empty α cap).words = [] := rfl

lemma clock_words (q : BoundedQueue α cap) (wr : List α) (rd : Bool)
    (h : q.words.length + wr.length ≤ cap) :
    (q.clock wr rd).words = (if rd then q.words.tail else q.words) ++ wr := by
  simp only [clock, if_pos h]

@[simp] lemma clock_idle (q : BoundedQueue α cap) : q.clock [] false = q := by
  cases q
  simp [clock]

@[simp] lemma clock_words_nil (q : BoundedQueue α cap) (rd : Bool) :
    (q.clock [] rd).words = if rd then q.words.tail else q.words := by
  simp [clock]

/-- A clock edge brings in no word that is not on the write port, and keeps the order. -/
lemma clock_sublist (q : BoundedQueue α cap) (wr : List α) (rd : Bool) :
    (q.clock wr rd).words.Sublist ((if rd then q.words.tail else q.words) ++ wr) := by
  apply List.Sublist.append_left
  split
  · exact List.Sublist.refl wr
  · exact List.nil_sublist wr

@[ext] lemma ext {q r : BoundedQueue α cap} (h : q.words = r.words) : q = r := by
  cases q
  cases r
  simpa using h

/-- The queue with every word sent through `f`. -/
def map {β : Type} (f : α → β) (q : BoundedQueue α cap) : BoundedQueue β cap where
  words := q.words.map f
  length_le := by simpa using q.length_le

lemma map_clock {β : Type} (f : α → β) (q : BoundedQueue α cap) (wr : List α) (rd : Bool) :
    (q.clock wr rd).map f = (q.map f).clock (wr.map f) rd := by
  apply ext
  simp only [map, clock, List.map_append, List.length_map, apply_ite (List.map f), List.map_tail,
    List.map_nil]

end BoundedQueue
