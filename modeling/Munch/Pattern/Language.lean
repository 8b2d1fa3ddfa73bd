import Munch.Pattern.Basic

/-!
# The language of a pattern

The words that a pattern stands for, defined by recursion on the pattern and
without any automaton.

A repetition with a maximum below its minimum still admits exactly `min` copies:
the bound on the number of copies is the larger of the two.

**Results.**
* `language_sequence_cons`, `language_choice`: the language of a list of parts,
  part by part.
* `matchesEmpty_iff`: nullability is membership of the empty word.
-/

namespace Munch
namespace Pattern

mutual

/-- Whether a word belongs to the pattern. -/
def language : Pattern → List Byte → Prop
  | empty, w => w = []
  | oneOf set, w => ∃ b, set.contains b = true ∧ w = [b]
  | sequence parts, w => languageOfSequence parts w
  | choice branches, w => languageOfChoice branches w
  | repeated body min max, w =>
    ∃ copies : List (List Byte), copies.flatten = w ∧ (∀ v ∈ copies, language body v) ∧
      min ≤ copies.length ∧ ∀ m, max = some m → copies.length ≤ Nat.max m min

/-- Whether a word is made of one word of each part, in order. -/
def languageOfSequence : List Pattern → List Byte → Prop
  | [], w => w = []
  | part :: parts, w => ∃ u v, u ++ v = w ∧ language part u ∧ languageOfSequence parts v

/-- Whether a word belongs to one of the branches. -/
def languageOfChoice : List Pattern → List Byte → Prop
  | [], _ => False
  | branch :: branches, w => language branch w ∨ languageOfChoice branches w

end

theorem language_sequence_nil (w : List Byte) : (sequence []).language w ↔ w = [] := by
  rw [language, languageOfSequence]

theorem language_sequence_cons (part : Pattern) (parts : List Pattern) (w : List Byte) :
    (sequence (part :: parts)).language w ↔
      ∃ u v, u ++ v = w ∧ part.language u ∧ (sequence parts).language v := by
  simp only [language, languageOfSequence]

theorem language_choice (branches : List Pattern) (w : List Byte) :
    (choice branches).language w ↔ ∃ branch ∈ branches, branch.language w := by
  rw [language]
  induction branches with
  | nil => simp [languageOfChoice]
  | cons branch branches ih => simp [languageOfChoice, ih]

mutual

/-- A pattern is nullable exactly when the empty word belongs to it. -/
theorem matchesEmpty_iff : (p : Pattern) → p.matchesEmpty = true ↔ p.language []
  | empty => by simp [matchesEmpty, language]
  | oneOf set => by simp [matchesEmpty, language]
  | sequence parts => by
    rw [matchesEmpty, language]
    exact allMatchEmpty_iff parts
  | choice branches => by
    rw [matchesEmpty, language]
    exact someMatchesEmpty_iff branches
  | repeated body min max => by
    have hbody := matchesEmpty_iff body
    simp only [matchesEmpty, language, Bool.or_eq_true, beq_iff_eq]
    constructor
    · rintro (rfl | h)
      · exact ⟨[], rfl, by simp, Nat.le_refl _, by simp⟩
      · refine ⟨List.replicate min [], by simp, ?_, by simp, ?_⟩
        · intro v hv
          rw [List.eq_of_mem_replicate hv]
          exact hbody.1 h
        · intro m _
          rw [List.length_replicate]
          exact Nat.le_max_right _ _
    · rintro ⟨copies, hflat, hcopies, hmin, _⟩
      match copies with
      | [] => exact Or.inl (Nat.le_zero.1 hmin)
      | copy :: _ =>
        have hnil : copy = [] := List.flatten_eq_nil_iff.1 hflat copy List.mem_cons_self
        exact Or.inr (hbody.2 (hnil ▸ hcopies copy List.mem_cons_self))

theorem allMatchEmpty_iff : (parts : List Pattern) →
    allMatchEmpty parts = true ↔ languageOfSequence parts []
  | [] => by simp [allMatchEmpty, languageOfSequence]
  | part :: parts => by
    simp only [allMatchEmpty, languageOfSequence, Bool.and_eq_true, List.append_eq_nil_iff,
      matchesEmpty_iff part, allMatchEmpty_iff parts]
    constructor
    · rintro ⟨hpart, hparts⟩
      exact ⟨[], [], ⟨rfl, rfl⟩, hpart, hparts⟩
    · rintro ⟨u, v, ⟨rfl, rfl⟩, hpart, hparts⟩
      exact ⟨hpart, hparts⟩

theorem someMatchesEmpty_iff : (branches : List Pattern) →
    someMatchesEmpty branches = true ↔ languageOfChoice branches []
  | [] => by simp [someMatchesEmpty, languageOfChoice]
  | branch :: branches => by
    simp [someMatchesEmpty, languageOfChoice, matchesEmpty_iff branch,
      someMatchesEmpty_iff branches]

end

end Pattern
end Munch
