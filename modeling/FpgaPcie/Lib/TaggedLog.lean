import Mathlib.Data.List.Perm.Subperm
import Mathlib.Tactic

/-!
# Logs of tagged words

A log of words with tags, read tag by tag. If every tag has at most as many words in one log as in
another, and the first log is not shorter, then the two logs agree on every tag.
-/

namespace TaggedLog

variable {κ α : Type} [DecidableEq κ]

/-- The words with this tag, in order. -/
def words (k : κ) (l : List (κ × α)) : List α := (l.filter fun w => w.1 = k).map Prod.snd

@[simp] lemma words_nil (k : κ) : words k ([] : List (κ × α)) = [] := rfl

@[simp] lemma words_append (k : κ) (l m : List (κ × α)) : words k (l ++ m) = words k l ++ words k m := by
  simp [words]

@[simp] lemma words_singleton (k : κ) (w : κ × α) : words k [w] = if w.1 = k then [w.2] else [] := by
  by_cases h : w.1 = k
  · simp [words, h]
  · simp [words, h]

lemma length_words (k : κ) (l : List (κ × α)) : (words k l).length = (l.map Prod.fst).count k := by
  induction l with
  | nil => rfl
  | cons w l ih =>
    by_cases h : w.1 = k
    · simpa [words, h] using ih
    · simpa [words, h] using ih

section Compare

variable {l m : List (κ × α)} {rest : κ → List α}

lemma tags_subperm (h : ∀ k, (words k l ++ rest k).Sublist (words k m)) :
    (l.map Prod.fst).Subperm (m.map Prod.fst) := by
  rw [List.subperm_iff_count]
  intro k
  have hlen := (h k).length_le
  rw [List.length_append, length_words, length_words] at hlen
  omega

lemma length_le (h : ∀ k, (words k l ++ rest k).Sublist (words k m)) : l.length ≤ m.length := by
  have hlen := (tags_subperm h).length_le
  rwa [List.length_map, List.length_map] at hlen

/-- A log that is not shorter leaves nothing over. -/
theorem eq_of_length_le (h : ∀ k, (words k l ++ rest k).Sublist (words k m)) (hlen : m.length ≤ l.length)
    (k : κ) : rest k = [] ∧ words k l = words k m := by
  have hperm := (tags_subperm h).perm_of_length_le (by rwa [List.length_map, List.length_map])
  have hcount := hperm.count_eq k
  rw [← length_words, ← length_words] at hcount
  have hle := (h k).length_le
  rw [List.length_append] at hle
  have hnil : rest k = [] := List.eq_nil_of_length_eq_zero (by omega)
  have hsub := h k
  rw [hnil, List.append_nil] at hsub
  exact ⟨hnil, hsub.eq_of_length hcount⟩

end Compare

end TaggedLog
