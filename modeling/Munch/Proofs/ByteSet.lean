import Munch.ByteSet

/-!
# Laws of byte sets

**Results.**
* `union_empty`, `empty_union`, `union_assoc`: unions are those of sets.
* `isEmpty_eq_true_iff`: the test for emptiness.
* `ne_empty_of_contains`, `exists_contains_of_ne_empty`: a set is not empty when it has a
  member.
-/

namespace Munch
namespace ByteSet

theorem union_empty (s : ByteSet) : s.union empty = s := by
  apply ext_contains
  simp

theorem empty_union (s : ByteSet) : empty.union s = s := by
  apply ext_contains
  simp

theorem union_assoc (s t u : ByteSet) : (s.union t).union u = s.union (t.union u) := by
  apply ext_contains
  simp [Bool.or_assoc]

theorem isEmpty_eq_true_iff {s : ByteSet} : s.isEmpty = true ↔ s = empty := by
  obtain ⟨words⟩ := s
  rw [isEmpty, empty, mk.injEq, List.all_eq_true]
  constructor
  · intro h
    apply Vector.ext
    intro i hi
    simpa using h words[i] (by simp)
  · rintro rfl
    simp

theorem ne_empty_of_contains {s : ByteSet} {b : Byte} (h : s.contains b = true) : s ≠ empty := by
  rintro rfl
  rw [contains_empty] at h
  cases h

theorem exists_contains_of_ne_empty {s : ByteSet} (h : s ≠ empty) :
    ∃ b, s.contains b = true := by
  apply Classical.byContradiction
  intro hnone
  apply h
  apply ext_contains
  intro b
  rw [contains_empty, Bool.eq_false_iff]
  exact fun hb => hnone ⟨b, hb⟩

end ByteSet
end Munch
